/-!
# Row reduction

Systems of linear equations over the rationals.  A row of a system in `n` unknowns has `n`
coefficients and then the right-hand side.

`rowReduce` sweeps the columns from left to right.  In each column the first row without a pivot
that has an entry there is moved up to the rows with a pivot, scaled to have a one in the column and
subtracted from every other row.  What is left below the pivots at the end says `0 = c`, and the
system has no solution if some `c` is not zero.
-/

namespace StaticAnalysis

/-- The coefficients of an equation followed by its right-hand side. -/
abbrev Row := List Rat

namespace Row

def entry (r : Row) (col : Nat) : Rat := r.getD col 0

def minus (r : Row) (factor : Rat) (s : Row) : Row := List.zipWith (fun x y => x - factor * y) r s

def divide (r : Row) (p : Rat) : Row := r.map (· / p)

/-- The row with the entry in a column made zero by subtracting a row that has a one there. -/
def eliminate (pivot : Row) (col : Nat) (r : Row) : Row := r.minus (r.entry col) pivot

/-- The first of `n` columns with a non-zero entry. -/
def pivot? (n : Nat) (r : Row) : Option Nat := (List.range n).find? fun c => r.entry c != 0

def isZero (r : Row) : Bool := r.all (· == 0)

/-- The row that is left after the pivot columns of a reduced system have been eliminated. -/
def residue (n : Nat) (rows : List Row) (r : Row) : Row :=
  rows.foldl (fun r p => match p.pivot? n with | some c => p.eliminate c r | none => r) r

end Row

/-- A sweep in progress: the rows before `pivotRow` have pivots, in the order of their columns. -/
structure Sweep where
  rows : List Row
  pivotRow : Nat

namespace Sweep

def reduced (s : Sweep) : List Row := s.rows.take s.pivotRow

def unused (s : Sweep) : List Row := s.rows.drop s.pivotRow

/-- The rows with two of them exchanged. -/
def swap (rows : List Row) (i j : Nat) : List Row :=
  (rows.set i (rows.getD j [])).set j (rows.getD i [])

/-- Use a column: move its pivot up and clear the column in all other rows. -/
def column (s : Sweep) (col : Nat) : Sweep :=
  match s.unused.findIdx? fun r => r.entry col != 0 with
  | none => s
  | some i =>
    let rows := swap s.rows s.pivotRow (s.pivotRow + i)
    let r := rows.getD s.pivotRow []
    let p := r.divide (r.entry col)
    let clear (k : Nat) (q : Row) : Row :=
      if k = s.pivotRow ∨ q.entry col = 0 then q else p.eliminate col q
    ⟨(rows.set s.pivotRow p).mapIdx clear, s.pivotRow + 1⟩

end Sweep

/-- The reduced row echelon form of a system in `n` unknowns; `none` if it has no solution. -/
def rowReduce (rows : List Row) (n : Nat) : Option (List Row) :=
  let s := (List.range n).foldl Sweep.column ⟨rows, 0⟩
  if s.unused.all fun r => r.entry n == 0 then some s.reduced else none

end StaticAnalysis
