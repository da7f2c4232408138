import StaticAnalysis.Memory.AddrSet
import StaticAnalysis.Memory.Segmented
import StaticAnalysis.Numeric.IntVal

/-!
# Values of memory cells

A cell holds an integer, an address or an array; values of different kinds have no upper bound but
`Value.top`, except that a literal zero stored into a pointer is the null pointer.

Arrays nest.  Combining two arrays joins their elements before it combines them, so an operation on
values recurses on the nesting depth of its arguments: `joinWith n` and its companions are right
for values of depth at most `n`, and `Value.join` and the others supply the depth.
-/

namespace StaticAnalysis

/-- The abstract value of a cell. -/
inductive Value where
  | bottom
  | int (v : IntVal)
  | addr (a : AddrSet)
  | array (a : Segmented Value)
  | top

/-- An array of values. -/
abbrev ArrayVal := Segmented Value

namespace Value

instance : Inhabited Value := ⟨.top⟩

/-- Equality of values is decidable, by recursion on the nesting of arrays. -/
def decEq : (a b : Value) → Decidable (a = b)
  | .bottom, .bottom => isTrue rfl
  | .top, .top => isTrue rfl
  | .int v, .int w => if h : v = w then isTrue (by simp [h]) else isFalse (by simp [h])
  | .addr a, .addr b => if h : a = b then isTrue (by simp [h]) else isFalse (by simp [h])
  | .array ⟨m, .whole v⟩, .array ⟨n, .whole w⟩ =>
    if h : m = n then
      match decEq v w with
      | isTrue hv => isTrue (by simp [h, hv])
      | isFalse hv => isFalse (by simp [hv])
    else isFalse (by simp [h])
  | .array ⟨m, .split j x y z⟩, .array ⟨n, .split k x' y' z'⟩ =>
    if h : m = n ∧ j = k then
      match decEq x x', decEq y y', decEq z z' with
      | isTrue hx, isTrue hy, isTrue hz => isTrue (by simp [h, hx, hy, hz])
      | isFalse hx, _, _ => isFalse (by simp [hx])
      | _, isFalse hy, _ => isFalse (by simp [hy])
      | _, _, isFalse hz => isFalse (by simp [hz])
    else isFalse (by intro e; apply h; cases e; exact ⟨rfl, rfl⟩)
  | .array ⟨_, .whole _⟩, .array ⟨_, .split ..⟩ => isFalse (by simp)
  | .array ⟨_, .split ..⟩, .array ⟨_, .whole _⟩ => isFalse (by simp)
  | .bottom, .int _ | .bottom, .addr _ | .bottom, .array _ | .bottom, .top => isFalse (by simp)
  | .int _, .bottom | .int _, .addr _ | .int _, .array _ | .int _, .top => isFalse (by simp)
  | .addr _, .bottom | .addr _, .int _ | .addr _, .array _ | .addr _, .top => isFalse (by simp)
  | .array _, .bottom | .array _, .int _ | .array _, .addr _ | .array _, .top => isFalse (by simp)
  | .top, .bottom | .top, .int _ | .top, .addr _ | .top, .array _ => isFalse (by simp)
termination_by structural a => a

instance : DecidableEq Value := decEq

def ofInt (n : Int) : Value := .int (.constant n)

def depth : Value → Nat
  | .array ⟨_, .whole v⟩ => v.depth + 1
  | .array ⟨_, .split _ left mid right⟩ => max left.depth (max mid.depth right.depth) + 1
  | _ => 0
termination_by structural v => v

def isAddr : Value → Bool
  | .addr _ => true
  | _ => false

def isArray : Value → Bool
  | .array _ => true
  | _ => false

/-! ## Extremes -/

def isBottom : Value → Except Fault Bool
  | .bottom => pure true
  | .int v => pure v.isBottom
  | .addr a => pure a.isBottom
  | .array ⟨n, .whole v⟩ => Segmented.all ⟨n, .whole v.isBottom⟩
  | .array ⟨n, .split k left mid right⟩ =>
    Segmented.all ⟨n, .split k left.isBottom mid.isBottom right.isBottom⟩
  | .top => pure false
termination_by structural v => v

def isTop : Value → Except Fault Bool
  | .bottom => pure false
  | .int v => pure v.isTop
  | .addr a => pure a.isAny
  | .array ⟨n, .whole v⟩ => Segmented.all ⟨n, .whole v.isTop⟩
  | .array ⟨n, .split k left mid right⟩ =>
    Segmented.all ⟨n, .split k left.isTop mid.isTop right.isTop⟩
  | .top => pure true
termination_by structural v => v

def arrayIsBottom (a : ArrayVal) : Except Fault Bool := isBottom (.array a)

/-! ## Views -/

/-- The value as an integer: null is zero, and any other address is some integer. -/
def toInt : Value → IntVal
  | .int v => v
  | .bottom => .bottom
  | .addr (.of targets) =>
    if targets.isEmpty then .bottom
    else if targets.toList.all (·.isNone) then .constant 0
    else .top
  | _ => .top

/-- The value as an address: zero is null, and any other integer is some address. -/
def toAddr : Value → AddrSet
  | .addr a => a
  | .bottom => .bottom
  | .int v => if v.isBottom then .bottom else if v.constant? = some 0 then .null else .any
  | _ => .any

/-- The array of the same length that may hold anything. -/
def havocArray (a : ArrayVal) : ArrayVal := .uniform a.length .top

/-- An unknown value of the same shape: addresses stay addresses and arrays keep their length. -/
def havoc : Value → Value
  | .array a => .array (havocArray a)
  | .addr _ => .addr .any
  | _ => .top

/-! ## Order -/

def leWith : Nat → Value → Value → Except Fault Bool
  | fuel, v, w => do
    if ← v.isBottom then return true
    match v, w with
    | _, .top => return true
    | .int a, .int b => return a.le b
    | .addr a, .addr b => return a.le b
    | .array a, .array b =>
      match fuel with
      | 0 => return false
      | n + 1 => Segmented.le arrayIsBottom (leWith n) a b
    | .int a, .addr b => return a.constant? == some 0 && b.mayBeNull
    | _, _ => return false

def joinWith : Nat → Value → Value → Except Fault Value
  | fuel, v, w => do
    if ← v.isBottom then return w
    if ← w.isBottom then return v
    match v, w with
    | .int a, .int b => return .int (← a.join b)
    | .addr a, .addr b => return .addr (a.join b)
    | .array a, .array b =>
      match fuel with
      | 0 => return .top
      | n + 1 => return .array (← Segmented.combine .bottom (joinWith n) (joinWith n) a b)
    | .int i, .addr a => return if i.constant? = some 0 then .addr (a.join .null) else .top
    | .addr a, .int i => return if i.constant? = some 0 then .addr (a.join .null) else .top
    | _, _ => return .top

variable (v w : Value)

def le : Except Fault Bool := leWith (max v.depth w.depth) v w

def join : Except Fault Value := joinWith (max v.depth w.depth) v w

def meetWith : Nat → Value → Value → Except Fault Value
  | _, .top, w => pure w
  | _, v, .top => pure v
  | _, .int a, .int b => return .int (← a.meet b)
  | _, .addr a, .addr b => pure (.addr (a.meet b))
  | n + 1, .array a, .array b => return .array (← Segmented.meet .bottom join (meetWith n) a b)
  | _, _, _ => pure .bottom

def meet : Except Fault Value := meetWith (max v.depth w.depth) v w

def widenWith : Nat → Value → Value → Except Fault Value
  | fuel, v, w => do
    if ← v.isBottom then return w
    match v, w with
    | .int a, .int b => return .int (a.widen b)
    | .array a, .array b =>
      match fuel with
      | 0 => return .top
      | n + 1 => return .array (← Segmented.widen .bottom arrayIsBottom join (widenWith n) a b)
    | _, _ => v.join w

def widen : Except Fault Value := widenWith (max v.depth w.depth) v w

def narrowWith : Nat → Value → Value → Except Fault Value
  | _, .int a, .int b => return .int (← a.narrow b)
  | n + 1, .array a, .array b => return .array (← Segmented.narrow .bottom join (narrowWith n) a b)
  | _, .top, w => pure w
  | _, v, _ => pure v

def narrow : Except Fault Value := narrowWith (max v.depth w.depth) v w

/-! ## Pointers in values -/

/-- The element of an array at some index of an interval. -/
def readArray (a : ArrayVal) (i : Interval) : Except Fault Value := a.read .bottom join i

/-- The cells a value may point to, unless it holds a pointer to anywhere. -/
def pointeesWith : Nat → Value → Except Fault (Option (List Cell))
  | _, .addr a => pure a.cells?
  | n + 1, .array a => do pointeesWith n (← readArray a .top)
  | _, _ => pure (some [])

def pointees? : Except Fault (Option (List Cell)) := pointeesWith v.depth v

/-! ## Text -/

def text : Value → String
  | .bottom => "⊥"
  | .int v => v.text
  | .addr a => a.text
  | .array ⟨n, .whole v⟩ => Segmented.text ⟨n, .whole v.text⟩
  | .array ⟨n, .split k left mid right⟩ =>
    Segmented.text ⟨n, .split k left.text mid.text right.text⟩
  | .top => "⊤"
termination_by structural v => v

instance : Domain Value where
  bottom := .bottom
  top := .top
  isBottom := isBottom
  isTop := isTop
  le := le
  join := join
  meet := meet
  widen := widen
  narrow := narrow

end Value

namespace ArrayVal

def isTop (a : ArrayVal) : Except Fault Bool := Value.isTop (.array a)

def le (a b : ArrayVal) : Except Fault Bool := Segmented.le Value.arrayIsBottom Value.le a b

def join (a b : ArrayVal) : Except Fault ArrayVal :=
  Segmented.combine .bottom Value.join Value.join a b

def meet (a b : ArrayVal) : Except Fault ArrayVal :=
  Segmented.meet .bottom Value.join Value.meet a b

def widen (a b : ArrayVal) : Except Fault ArrayVal :=
  Segmented.widen .bottom Value.arrayIsBottom Value.join Value.widen a b

def narrow (a b : ArrayVal) : Except Fault ArrayVal :=
  Segmented.narrow .bottom Value.join Value.narrow a b

/-- The array after storing a value at some index of an interval. -/
def write (a : ArrayVal) (i : Interval) (v : Value) (partitioning : Bool) : Except Fault ArrayVal :=
  Segmented.write .bottom Value.join a i v partitioning

def text (a : ArrayVal) : String := Value.text (.array a)

instance : Domain ArrayVal where
  bottom := .uniform none .bottom
  top := .uniform none .top
  isBottom := Value.arrayIsBottom
  isTop := isTop
  le := le
  join := join
  meet := meet
  widen := widen
  narrow := narrow

end ArrayVal
end StaticAnalysis
