import StaticAnalysis.Arith.Word

/-!
# Difference bound matrices

A difference bound matrix of dimension `n` bounds the differences of `n` quantities
`V 0, …, V (n - 1)`: entry `(i, j)` is an upper bound of `V j - V i`, or `none` if there is no
bound.

`shortestPaths` adds the bounds that follow from chains of entries.  The rounds go over the middle
point `k`, and within a round row after row takes in the detours through `k`.  A sum outside the
word range gives no bound.

In the matrices of octagons quantities come in pairs: `V (2 * k)` is a variable and `V (2 * k + 1)`
its negation.  `twin` goes from one to the other, so that entry `(i, twin i)` bounds twice a
variable.  `tighten` and `strengthen` use that variables are integers.
-/

namespace StaticAnalysis

/-- An upper bound; `none` is no bound. -/
abbrev Ceiling := Option Int

namespace Ceiling

def min : Ceiling → Ceiling → Ceiling
  | some a, some b => some (if a ≤ b then a else b)
  | some a, none => some a
  | none, b => b

def max : Ceiling → Ceiling → Ceiling
  | some a, some b => some (if a ≤ b then b else a)
  | _, _ => none

/-- Whether the first bound is at least as strong. -/
def le : Ceiling → Ceiling → Bool
  | _, none => true
  | none, some _ => false
  | some a, some b => decide (a ≤ b)

def shift (c : Ceiling) (d : Int) : Ceiling :=
  c.bind fun a => if d = 0 then some a else Word.add? a d

end Ceiling

/-- A square matrix of bounds, row by row. -/
structure Dbm where
  rows : Array (Array Ceiling)
deriving DecidableEq

namespace Dbm

variable (m : Dbm) (i j : Nat)

def dim : Nat := m.rows.size

def row : Array Ceiling := m.rows.getD i #[]

def bound : Ceiling := (m.row i).getD j none

/-- The matrix of dimension `n` with entries `f i j`. -/
def ofFn (n : Nat) (f : Nat → Nat → Ceiling) : Dbm :=
  ⟨Array.ofFn fun i : Fin n => Array.ofFn fun j : Fin n => f i j⟩

def map (f : Nat → Nat → Ceiling → Ceiling) : Dbm :=
  ofFn m.dim fun i j => f i j (m.bound i j)

def unconstrained (n : Nat) : Dbm := ofFn n fun i j => if i = j then some 0 else none

def set (c : Ceiling) : Dbm :=
  ⟨m.rows.setIfInBounds i ((m.row i).setIfInBounds j c)⟩

/-- Whether each entry of `m` and `n` satisfies `p`. -/
def all₂ (p : Ceiling → Ceiling → Bool) (m n : Dbm) : Bool :=
  (List.range m.dim).all fun i => (List.range m.dim).all fun j => p (m.bound i j) (n.bound i j)

/-- Combine two matrices of one dimension entry by entry. -/
def zipWith (f : Ceiling → Ceiling → Ceiling) (m n : Dbm) : Dbm :=
  m.map fun i j c => f c (n.bound i j)

/-! ## Closure -/

def relaxRow (k : Nat) (m : Dbm) (i : Nat) : Dbm :=
  match m.bound i k with
  | none => m
  | some d =>
    ⟨m.rows.setIfInBounds i (Array.zipWith (fun direct rest => direct.min (rest.bind (Word.add? d)))
      (m.row i) (m.row k))⟩

def relaxThrough (k : Nat) : Dbm := (List.range m.dim).foldl (relaxRow k) m

/-- The bounds that follow from chains of entries. -/
def shortestPaths : Dbm := (List.range m.dim).foldl relaxThrough m

def twin : Nat := if i % 2 = 0 then i + 1 else i - 1

/-- Twice an integer is even, so an odd bound on it loses one. -/
def tighten : Dbm :=
  m.map fun i j c => if j = twin i then c.map fun a => 2 * (a / 2) else c

/-- `V j - V i` is at most half of `2 * V j - 2 * V i`. -/
def strengthen : Dbm :=
  m.map fun i j c =>
    c.min ((m.bound i (twin i)).bind fun a =>
      (m.bound (twin j) j).bind fun b => (Word.add? a b).map (· / 2))

/-- The first index with a negative diagonal entry, which no valuation satisfies. -/
def contradiction? : Option Nat :=
  (List.range m.dim).find? fun i => (m.bound i i).any (decide <| · < 0)

/-- Set the diagonal entries before index `n` to zero. -/
def clearDiagonal (n : Nat) : Dbm :=
  m.map fun i j c => if i = j ∧ i < n then some 0 else c

/-- Add a bound on `V j - V i` together with the equal bound on the negated quantities. -/
def constrain (c : Int) : Dbm :=
  let m := m.set i j ((m.bound i j).min (some c))
  m.set (twin j) (twin i) ((m.bound (twin j) (twin i)).min (some c))

end Dbm
end StaticAnalysis
