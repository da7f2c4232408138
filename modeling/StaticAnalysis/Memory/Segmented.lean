import StaticAnalysis.Numeric.Interval

/-!
# Segmented arrays

An array of abstract elements.  All elements share one value, or the array is split at the index of
the last write to a known index: one value below it, one at it, and one above it.  Writing at
another index moves the split and folds the old middle into the side it now belongs to, so that
initializing an array element by element stays exact.

Everything here is over any type of elements; an operation takes the operations on elements that
it needs.  An array of unknown length has every index from zero on.
-/

namespace StaticAnalysis

/-- How the elements of an array are told apart. -/
inductive Layout (α : Type) where
  | whole (v : α)
  | split (index : Int) (left mid right : α)
deriving DecidableEq, Repr

/-- An array, with its length if that is known. -/
structure Segmented (α : Type) where
  length : Option Int
  layout : Layout α
deriving DecidableEq, Repr

namespace Segmented

variable {α β : Type}

/-- The array whose elements all have one value. -/
def uniform (length : Option Int) (v : α) : Segmented α := ⟨length, .whole v⟩

/-! ## Indices -/

variable (bottom : α) (join : α → α → Except Fault α) (a : Segmented α) (i : Interval)

def last? : Except Fault (Option Int) :=
  match a.length with
  | none => pure none
  | some n => some <$> Word.sub n 1

def indices : Except Fault Interval := do
  match ← a.last? with
  | some last => pure (.range 0 last)
  | none => pure (.atLeast 0)

def below (k : Int) : Except Fault Interval := Interval.atMost <$> Word.sub k 1

def above (k : Int) : Except Fault Interval := Interval.atLeast <$> Word.add k 1

/-- The segments of an array with their indices. -/
def segments : Except Fault (List (Interval × α)) := do
  let all ← a.indices
  match a.layout with
  | .whole v => pure [(all, v)]
  | .split k left mid right =>
    let low ← below k
    let high ← above k
    pure [(all.meet low, left), (all.meet (.constant k), mid), (all.meet high, right)]

/-- The value of the segment that an index belongs to. -/
def valueAt (i : Int) : α :=
  match a.layout with
  | .whole v => v
  | .split k left mid right => if i < k then left else if i = k then mid else right

/-- Whether every segment that has an index passes a test. -/
def all (a : Segmented (Except Fault Bool)) : Except Fault Bool := do
  (← a.segments).allM fun (range, test) => if range.isEmpty then pure true else test

/-! ## Reading and writing -/

/-- The join of the elements at the indices of an interval. -/
def read :
    Except Fault α := do
  let i := i.meet (← a.indices)
  let met := (← a.segments).filter fun (range, _) => !(range.meet i).isEmpty
  met.foldlM (fun acc (_, v) => join acc v) bottom

/-- The values left and right of `k` once the array is split there. -/
def sidesOf (k : Int) : Except Fault (α × α) :=
  match a.layout with
  | .whole v => pure (v, v)
  | .split j left mid right =>
    if k = j then pure (left, right)
    else if j < k then do
      let side ← join left mid
      -- Indices between the two splits come from the old right side.
      let side ← if j + 1 < k then join side right else pure side
      pure (side, right)
    else do
      let side ← join right mid
      let side ← if k < j - 1 then join side left else pure side
      pure (left, side)

/-- Store `v` at index `k` and split the array there. -/
def writeAt (k : Int) (v : α) :
    Except Fault (Segmented α) := do
  let last ← a.last?
  let (left, right) ← a.sidesOf join k
  let atEnd := match last with
    | some last => decide (last ≤ k)
    | none => false
  pure ⟨a.length, .split k (if k ≤ 0 then bottom else left) v (if atEnd then bottom else right)⟩

/-- Store `v` at one of the indices of an interval. -/
def writeSome (v : α) :
    Except Fault (Segmented α) := do
  let update (old : α) (range : Interval) : Except Fault α :=
    if (range.meet i).isEmpty then pure old else join old v
  match a.layout with
  | .whole old => return ⟨a.length, .whole (← join old v)⟩
  | .split k left mid right =>
    let left ← update left (← below k)
    let mid ← update mid (.constant k)
    let right ← update right (← above k)
    return ⟨a.length, .split k left mid right⟩

/-- Store `v` at an index of an interval.  A known index splits the array when `partitioning` is
enabled, and a store to the only element of an array replaces it. -/
def write (v : α)
    (partitioning : Bool) : Except Fault (Segmented α) := do
  let i := i.meet (← a.indices)
  if i.isEmpty then return a
  match i.constant? with
  | some k =>
    if partitioning then a.writeAt bottom join k v
    else if a.length = some 1 ∧ k = 0 then return uniform a.length v
    else a.writeSome join i v
  | none => a.writeSome join i v

/-! ## Combining two arrays -/

/-- The indices where either of two arrays is split, ascending. -/
def splits (b : Segmented β) : List Int :=
  match a.layout, b.layout with
  | .whole _, .whole _ => []
  | .split j .., .whole _ => [j]
  | .whole _, .split k .. => [k]
  | .split j .., .split k .. => if j = k then [j] else if j < k then [j, k] else [k, j]

def someIndex : List Int :=
  if i.isEmpty then []
  else
    match i.low, i.high with
    | .finite l, _ => [l]
    | _, .finite h => [h]
    | _, _ => [0]

/-- One index of each region between the split points after `prev`, and of the split points. -/
def regionsAfter (all : Interval) : Option Int → List Int → Except Fault (List Int)
  | prev, [] => do
    let tail ← match prev with
      | some q => above q
      | none => pure .top
    pure (someIndex (tail.meet all))
  | prev, p :: points => do
    let gap ← match prev with
      | some q => do
        let low ← Word.add q 1
        let high ← Word.sub p 1
        pure (Interval.range low high)
      | none => below p
    let rest ← regionsAfter all (some p) points
    pure (someIndex (gap.meet all) ++ someIndex ((Interval.constant p).meet all) ++ rest)

/-- One index of each region on which two arrays are both constant. -/
def regions (b : Segmented β) : Except Fault (List Int) := do
  regionsAfter (← a.indices) none (a.splits b)

/-- Combine two arrays segment by segment, over the lower of their splits. -/
def combine (f : α → α → Except Fault α)
    (a b : Segmented α) : Except Fault (Segmented α) := do
  let length := if a.length = b.length then a.length else none
  match a.splits b with
  | [] => return ⟨length, .whole (← f (a.valueAt 0) (b.valueAt 0))⟩
  | k :: _ =>
    let low ← below k
    let left ← f (← a.read bottom join low) (← b.read bottom join low)
    let mid ← f (a.valueAt k) (b.valueAt k)
    let high ← above k
    let right ← f (← a.read bottom join high) (← b.read bottom join high)
    return ⟨length, .split k left mid right⟩

/-- Whether two arrays are split at the same place. -/
def sameSplit? (b : Segmented β) : Option Bool :=
  match a.layout, b.layout with
  | .split j .., .split k .. => some (j == k)
  | .whole _, .whole _ => some true
  | _, _ => none

/-- Order of arrays: region by region.  A known length is only above the same length. -/
def le (isBottom : Segmented α → Except Fault Bool) (le : α → α → Except Fault Bool)
    (a b : Segmented α) : Except Fault Bool := do
  if b.length.isSome && a.length != b.length then
    unless ← isBottom a do return false
  (← a.regions b).allM fun i => le (a.valueAt i) (b.valueAt i)

def meet (bottom : α) (join meet : α → α → Except Fault α) (a b : Segmented α) :
    Except Fault (Segmented α) := do
  let c ← combine bottom join meet a b
  return { c with length := a.length <|> b.length }

/-- Widening: a split that moved collapses the array to one value. -/
def widen (bottom : α) (isBottom : Segmented α → Except Fault Bool)
    (join widen : α → α → Except Fault α) (a b : Segmented α) : Except Fault (Segmented α) := do
  let same ← match a.sameSplit? b with
    | some same => pure same
    | none => isBottom a
  if same then combine bottom join widen a b
  else
    let before ← a.read bottom join .top
    let after ← b.read bottom join .top
    return uniform a.length (← widen before (← join before after))

/-- Narrowing, for arrays split at no more than one place. -/
def narrow (bottom : α) (join narrow : α → α → Except Fault α) (a b : Segmented α) :
    Except Fault (Segmented α) :=
  if 1 < (a.splits b).length then pure a else combine bottom join narrow a b

/-- The text of an array, given the texts of its elements. -/
def text (a : Segmented String) : String :=
  match a.layout with
  | .whole v => "[" ++ v ++ "]"
  | .split k left mid right =>
    let k := toString k
    "[<" ++ k ++ ": " ++ left ++ " | " ++ k ++ ": " ++ mid ++ " | >" ++ k ++ ": " ++ right ++ "]"

end Segmented
end StaticAnalysis
