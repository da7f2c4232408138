import StaticAnalysis.Numeric.Interval
import StaticAnalysis.Numeric.Congruence
import StaticAnalysis.Numeric.Truth
import StaticAnalysis.Numeric.DomainSet

/-!
# Abstract integers

The reduced product of intervals and congruences.  `IntVal.reduced` pulls each finite bound of the
interval inward to the nearest member of the congruence class, and turns a product with one value
into that constant.  The distance from a bound to the class is a word subtraction, which is where
integer operations can fault.

Widening is left unreduced: pulling a bound back in after widening could undo it.
-/

namespace StaticAnalysis

/-- The integers in an interval and in a congruence class. -/
structure IntVal where
  interval : Interval
  congruence : Congruence
deriving DecidableEq, Repr

namespace IntVal

def bottom : IntVal := ⟨.bottom, .bottom⟩

def top : IntVal := ⟨.top, .top⟩

def constant (n : Int) : IntVal := ⟨.constant n, .constant n⟩

def isBottom (a : IntVal) : Bool := a.interval.isEmpty || a.congruence.isBottom

def isTop (a : IntVal) : Bool := a.interval.isTop && a.congruence.isTop

/-- The only value, if the interval or the class has just one. -/
def constant? (a : IntVal) : Option Int := a.interval.constant? <|> a.congruence.constant?

def contains (a : IntVal) (n : Int) : Bool := a.interval.contains n && a.congruence.contains n

/-! ## Reduction -/

/-- Move a lower bound up to the class `c + kℤ`. -/
def raiseLow (c k : Int) : Bound → Except Fault Bound
  | .finite l => do
    let d ← Word.sub c l
    pure (.finite (Word.satAdd l (d % k)))
  | b => pure b

/-- Move an upper bound down to the class `c + kℤ`. -/
def lowerHigh (c k : Int) : Bound → Except Fault Bound
  | .finite h => do
    let d ← Word.sub h c
    pure (.finite (Word.satSub h (d % k)))
  | b => pure b

/-- The product of an interval and a class, each tightened by the other. -/
def reduced (i : Interval) (g : Congruence) : Except Fault IntVal :=
  if i.isEmpty then pure bottom
  else
    match g with
    | .bottom => pure bottom
    | .residue c k =>
      if k = 0 then pure (if i.contains c then constant c else bottom)
      else if 1 < k then do
        let low ← raiseLow c k i.low
        let high ← lowerHigh c k i.high
        let j := Interval.between low high
        if j.isEmpty then pure bottom
        else
          match j.constant? with
          | some n => pure (constant n)
          | none => pure ⟨j, g⟩
      else
        match i.constant? with
        | some n => pure (constant n)
        | none => pure ⟨i, g⟩

/-- The values of an interval.  Reducing with the class of all integers cannot fault. -/
def ofInterval (i : Interval) : IntVal :=
  if i.isEmpty then bottom
  else
    match i.constant? with
    | some n => constant n
    | none => ⟨i, .top⟩

theorem reduced_top (i : Interval) : reduced i .top = .ok (ofInterval i) := by
  unfold reduced ofInterval Congruence.top
  split
  · rfl
  · simp only [Int.reduceLT, if_false]
    rw [if_neg (by decide)]
    split <;> rfl

def range (low high : Int) : IntVal := ofInterval (.range low high)

/-- The value of a comparison: `1` if it holds and `0` if it fails. -/
def ofTruth : Truth → IntVal
  | .true => constant 1
  | .false => constant 0
  | .unknown => range 0 1

variable (a b : IntVal)

/-- Forget the components that are not enabled.  With none enabled, constants are still kept. -/
def restrict (domains : DomainSet) : Except Fault IntVal :=
  if a.isBottom then pure bottom
  else
    let rest := reduced (if domains.interval then a.interval else .top)
      (if domains.congruence then a.congruence else .top)
    match a.constant? with
    | some n => if domains.isEmpty then pure (constant n) else rest
    | none => rest

/-! ## Order -/

def le (a b : IntVal) : Bool :=
  a.isBottom || (a.interval.le b.interval && a.congruence.le b.congruence)

def join (a b : IntVal) : Except Fault IntVal :=
  if a.isBottom then pure b
  else if b.isBottom then pure a
  else reduced (a.interval.join b.interval) (a.congruence.join b.congruence)

def meet (a b : IntVal) : Except Fault IntVal :=
  reduced (a.interval.meet b.interval) (a.congruence.meet b.congruence)

def widen (a b : IntVal) : IntVal :=
  if a.isBottom then b
  else if b.isBottom then a
  else ⟨a.interval.widen b.interval, a.congruence.widen b.congruence⟩

def narrow (a b : IntVal) : Except Fault IntVal :=
  reduced (a.interval.narrow b.interval) (a.congruence.narrow b.congruence)

/-! ## Arithmetic -/

def neg (a : IntVal) : Except Fault IntVal := reduced a.interval.neg a.congruence.neg

def add (a b : IntVal) : Except Fault IntVal :=
  reduced (a.interval.add b.interval) (a.congruence.add b.congruence)

def sub (a b : IntVal) : Except Fault IntVal :=
  reduced (a.interval.sub b.interval) (a.congruence.sub b.congruence)

def mul (a b : IntVal) : Except Fault IntVal :=
  reduced (a.interval.mul b.interval) (a.congruence.mul b.congruence)

def div (a b : IntVal) : Except Fault IntVal :=
  reduced (a.interval.div b.interval) (a.congruence.div b.congruence)

def rem (a b : IntVal) : Except Fault IntVal :=
  reduced (a.interval.rem b.interval) (a.congruence.rem b.congruence)

/-! ## Comparisons -/

def eqTruth : Except Fault Truth :=
  if a.isBottom || b.isBottom then pure .unknown
  else
    match a.constant?, b.constant? with
    | some x, some y => pure (.ofBool (x == y))
    | _, _ => do
      let both ← a.meet b
      pure (if both.isBottom then .false else .unknown)

def ltTruth : Truth :=
  if a.interval.isEmpty || b.interval.isEmpty then .unknown
  else if a.interval.high < b.interval.low then .true
  else if b.interval.high ≤ a.interval.low then .false
  else .unknown

def leTruth : Truth := (b.ltTruth a).not

/-! ## Refinement by a comparison -/

def restrictLt : Except Fault IntVal :=
  a.meet <| ofInterval <|
    match b.interval.high with
    | .finite h => .atMost (Word.satSub h 1)
    | .posInf => .top
    | .negInf => .bottom

/-- The values of `a` not above every value of `b`. -/
def restrictLe : Except Fault IntVal :=
  a.meet (ofInterval (.between .negInf b.interval.high))

def restrictGt : Except Fault IntVal :=
  a.meet <| ofInterval <|
    match b.interval.low with
    | .finite l => .atLeast (Word.satAdd l 1)
    | .negInf => .top
    | .posInf => .bottom

/-- The values of `a` not below every value of `b`. -/
def restrictGe : Except Fault IntVal :=
  a.meet (ofInterval (.between b.interval.low .posInf))

/-- The interval without `n`, when `n` is one of its ends. -/
def trimEnds (n : Int) (i : Interval) : Interval :=
  let i := if i.low = .finite n then .between (.finite (Word.satAdd n 1)) i.high else i
  if i.high = .finite n then .between i.low (.finite (Word.satSub n 1)) else i

/-- The values of `a` that differ from some value of `b`. -/
def restrictNe : Except Fault IntVal :=
  match b.constant? with
  | none => pure a
  | some n => reduced (trimEnds n a.interval) a.congruence

def text (a : IntVal) : String :=
  if a.isBottom then "⊥"
  else
    match a.constant? with
    | some n => toString n
    | none =>
      a.interval.text ++ (if a.congruence.isTop then "" else " ∧ " ++ a.congruence.text)

instance : Domain IntVal where
  bottom := bottom
  top := top
  isBottom a := pure a.isBottom
  isTop a := pure a.isTop
  le a b := pure (a.le b)
  join := join
  meet := meet
  widen a b := pure (a.widen b)
  narrow := narrow

end IntVal
end StaticAnalysis
