import StaticAnalysis.Numeric.Interval
import StaticAnalysis.Order.SortedSet
import StaticAnalysis.Relation.LinearForm
import StaticAnalysis.Relation.RowReduction

/-!
# Affine equalities

Linear equations between variables, kept in reduced row echelon form over exact rationals, so that
two systems over the same variables with the same solutions are equal.  The join is the affine
hull: both solution sets are written as a point plus directions, and the equations of the hull are
the normals of all directions together.

Once `infeasible` is set there is no solution.
-/

namespace StaticAnalysis

structure Affine where
  vars : SortedSet String
  rows : List Row
  infeasible : Bool
deriving DecidableEq

namespace Affine

def bottom : Affine := ⟨.empty, [], true⟩

def top : Affine := ⟨.empty, [], false⟩

variable (a b : Affine) (name : String)

def isTop : Bool := !a.infeasible && a.rows.isEmpty

def arity : Nat := a.vars.size

def index? : Option Nat := a.vars.toList.idxOf? name

def hasVar : Bool := a.vars.contains name

/-- The system with other equations over the same variables. -/
def withRows (rows : List Row) : Affine :=
  { a with rows := (rowReduce rows a.arity).getD [] }

/-! ## Variables -/

def embed (vars : SortedSet String) : Affine :=
  let columns := vars.toList.map a.index?
  let spread (r : Row) : Row :=
    columns.map (fun c => c.elim 0 r.entry) ++ [r.entry a.arity]
  { a with vars }.withRows (a.rows.map spread)

def addVar : Affine :=
  if a.hasVar name then a else a.embed (a.vars.insert name)

def addVars (names : List String) : Affine := names.foldl addVar a

def align : Affine × Affine :=
  if a.vars = b.vars then (a, b)
  else
    let vars := a.vars.union b.vars
    (a.embed vars, b.embed vars)

/-- Drop what the equations say about a variable: it is eliminated with the first equation that
mentions it, and that equation goes. -/
def forget : Affine :=
  match a.index? name with
  | none => a
  | some k =>
    match a.rows.findIdx? fun r => r.entry k != 0 with
    | none => a
    | some i =>
      let pivot := (a.rows.getD i []).divide ((a.rows.getD i []).entry k)
      a.withRows ((a.rows.eraseIdx i).map (pivot.eliminate k))

def removeVar : Affine :=
  match a.index? name with
  | none => a
  | some k =>
    let a := a.forget name
    { a with vars := a.vars.erase name, rows := a.rows.map (·.eraseIdx k) }

/-! ## Equations -/

/-- The equation `f = 0` over the tracked variables. -/
def row (f : LinearForm) : Row :=
  a.vars.toList.map (fun v => (f.coeff v : Rat)) ++ [-(f.constant : Rat)]

def addRows (rows : List Row) : Affine :=
  if a.infeasible then a
  else
    match rowReduce (a.rows ++ rows) a.arity with
    | some rows => { a with rows }
    | none => bottom

/-- The assignment `x := f`.  If `f` mentions `x` the old value is expressed by the new one and
substituted; otherwise `x` is forgotten and `x = f` is added. -/
def assign (f : LinearForm) : Affine :=
  if a.infeasible then a
  else
    let a := (a.addVar name).addVars f.vars
    match a.index? name with
    | none => a
    | some k =>
      if f.coeff name = 0 then
        let a := a.forget name
        a.addRows [((a.row f).map (-·)).set k 1]
      else
        let rest := a.row (f.drop name)
        let substitute (r : Row) : Row :=
          let factor := r.entry k / f.coeff name
          Row.minus (r.set k factor) factor rest
        a.withRows (a.rows.map substitute)

/-- The value of a form if the equations determine it.  A value that is not an integer shows that
there is no integer solution. -/
def eval (f : LinearForm) : Interval :=
  if a.infeasible then .bottom
  else if f.vars.any (!a.hasVar ·) && f.coeffs.values.any (· != 0) then .top
  else
    let rest := (a.row f).residue a.arity a.rows
    let value := -rest.entry a.arity
    if !(rest.take a.arity).all (· == 0) then .top
    else if value.den ≠ 1 then .bottom
    else if Word.fits value.num then .constant value.num
    else .top

/-- Meet with a linear constraint.  Only equalities are kept; others can show that there is no
solution. -/
def guard (c : LinearConstraint) : Affine :=
  if a.infeasible then a
  else
    match c.relation with
    | .eq =>
      let a := a.addVars c.form.vars
      a.addRows [a.row c.form]
    | .le =>
      let v := a.eval c.form
      if v.isEmpty || v.constant?.any (decide <| 0 < ·) then bottom else a
    | .ne =>
      let v := a.eval c.form
      if v.isEmpty || v.constant? == some 0 then bottom else a

/-! ## Hull -/

/-- The free columns of a reduced system in `n` unknowns. -/
def freeColumns (n : Nat) (rows : List Row) : List Nat :=
  let pivots := rows.filterMap (Row.pivot? n)
  (List.range n).filter fun c => !pivots.contains c

/-- The vector with a one in a free column that a reduced system sends to zero: each pivot column
gets the negated coefficient of its row. -/
def kernelVector (n : Nat) (rows : List Row) (free : Nat) : List Rat :=
  (List.range n).map fun c =>
    if c = free then 1
    else (rows.find? fun r => r.pivot? n == some c).elim 0 fun r => -(r.entry free)

/-- A basis of the vectors that a reduced system sends to zero. -/
def kernelBasis (n : Nat) (rows : List Row) : List (List Rat) :=
  (freeColumns n rows).map (kernelVector n rows)

/-- The solution in which every free column is zero. -/
def point (n : Nat) (rows : List Row) : List Rat :=
  (List.range n).map fun c => (rows.find? fun r => r.pivot? n == some c).elim 0 (·.entry n)

def dot (u v : List Rat) : Rat := (List.zipWith (· * ·) u v).foldl (· + ·) 0

/-- The equations of the space through a point with the given directions. -/
def span (vars : SortedSet String) (origin : List Rat) (directions : List (List Rat)) : Affine :=
  let n := vars.size
  let reduced := (rowReduce (directions.map (· ++ [0])) n).getD []
  let normals := kernelBasis n reduced
  withRows ⟨vars, [], false⟩ (normals.map fun u => u ++ [dot u origin])

/-! ## Order -/

/-- Whether every equation of `b` follows from those of `a`. -/
def le : Bool :=
  if a.infeasible then true
  else if b.infeasible then false
  else
    let (a, b) := a.align b
    b.rows.all fun r => (r.residue a.arity a.rows).isZero

def join : Affine :=
  if a.infeasible then b
  else if b.infeasible then a
  else
    let (a, b) := a.align b
    let n := a.arity
    let p := point n a.rows
    let q := point n b.rows
    span a.vars p (kernelBasis n a.rows ++ kernelBasis n b.rows ++ [List.zipWith (· - ·) q p])

def meet : Affine :=
  if a.infeasible || b.infeasible then bottom
  else
    let (a, b) := a.align b
    a.addRows b.rows

/-- Chains of hulls are bounded by the number of variables, so widening is the join. -/
def widen : Affine := a.join b

def narrow : Affine := a.meet b

instance : Domain Affine where
  bottom := bottom
  top := top
  isBottom a := pure a.infeasible
  isTop a := pure a.isTop
  le a b := pure (a.le b)
  join a b := pure (a.join b)
  meet a b := pure (a.meet b)
  widen a b := pure (a.widen b)
  narrow a b := pure (a.narrow b)

/-! ## Text -/

def ratText (q : Rat) : String :=
  if q.den = 1 then toString q.num else toString q.num ++ "/" ++ toString q.den

def rowText (vars : List String) (r : Row) : String :=
  let terms := (vars.zip r).filterMap fun (v, q) =>
    if q = 0 then none else some (if q = 1 then v else ratText q ++ "*" ++ v)
  " + ".intercalate terms ++ " == " ++ ratText (r.entry vars.length)

def constraints : List String :=
  if a.infeasible then ["false"] else a.rows.map (rowText a.vars.toList)

end Affine
end StaticAnalysis
