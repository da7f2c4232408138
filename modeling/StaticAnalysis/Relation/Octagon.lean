import StaticAnalysis.Numeric.Interval
import StaticAnalysis.Order.SortedSet
import StaticAnalysis.Relation.Dbm
import StaticAnalysis.Relation.LinearForm

/-!
# Octagons

Constraints `±x ± y ≤ c` between integer variables.  Variable number `k` of `vars` has the two
quantities `V (2 * k) = x` and `V (2 * k + 1) = -x` of the matrix `bounds`.

Operations keep the matrix closed, except for widening, whose result stays as it is so that a chain
of widenings comes to an end.  Once `infeasible` is set no valuation is described and the matrix
means nothing; equality of octagons is equality of what is stored.
-/

namespace StaticAnalysis

structure Octagon where
  vars : SortedSet String
  matrix : Dbm
  infeasible : Bool
deriving DecidableEq

namespace Octagon

def unconstrained (vars : SortedSet String) : Octagon :=
  ⟨vars, .unconstrained (2 * vars.size), false⟩

def bottom : Octagon := ⟨.empty, .unconstrained 0, true⟩

def top : Octagon := unconstrained .empty

variable (o p : Octagon) (name : String) (f : LinearForm)

def index? : Option Nat := o.vars.toList.idxOf? name

def hasVar : Bool := o.vars.contains name

def bound (o : Octagon) (i j : Nat) : Ceiling := o.matrix.bound i j

/-- Meet with `V j - V i ≤ c`, without closing. -/
def constrain (o : Octagon) (i j : Nat) (c : Int) : Octagon :=
  { o with matrix := o.matrix.constrain i j c }

/-! ## Closure -/

/-- Strong closure with integer tightening.  A negative diagonal entry shows that no valuation is
left. -/
def close : Octagon :=
  if o.infeasible then o
  else
    let m := o.matrix.shortestPaths.tighten.strengthen
    match m.contradiction? with
    | some i => { o with matrix := m.clearDiagonal i, infeasible := true }
    | none => { o with matrix := m.clearDiagonal m.dim }

def isBottom : Bool := o.close.infeasible

def isTop : Bool :=
  !o.infeasible && (List.range o.matrix.dim).all fun i =>
    (List.range o.matrix.dim).all fun j => i == j || (o.bound i j).isNone

/-! ## Variables -/

/-- The octagon over other variables: bounds between kept variables stay, and new variables are
unconstrained. -/
def reindex (vars : SortedSet String) : Octagon :=
  let places := vars.toList.map o.index?
  let place (i : Nat) : Option Nat := ((places[i / 2]?).join).map fun k => 2 * k + i % 2
  let entry (i j : Nat) : Ceiling :=
    match place i, place j with
    | some i', some j' => o.bound i' j'
    | _, _ => if i = j then some 0 else none
  { o with vars, matrix := .ofFn (2 * vars.size) entry }

def addVar : Octagon :=
  if o.hasVar name then o else o.reindex (o.vars.insert name)

def addVars (names : List String) : Octagon := names.foldl addVar o

def align : Octagon × Octagon :=
  if o.vars = p.vars then (o, p)
  else
    let vars := o.vars.union p.vars
    (o.reindex vars, p.reindex vars)

def removeVar : Octagon :=
  if o.hasVar name then o.close.reindex (o.vars.erase name) else o

/-- Drop all constraints on a variable, which stays tracked. -/
def forget : Octagon :=
  match o.index? name with
  | none => o
  | some k =>
    let o := o.close
    { o with matrix := o.matrix.map fun i j c => if (i / 2 = k ∨
      j / 2 = k) ∧ i ≠ j then none else c }

/-! ## Bounds of expressions -/

/-- The interval of a variable; unbounded if it is not tracked. -/
def bounds : Interval :=
  if o.infeasible then .bottom
  else
    match o.index? name with
    | none => .top
    | some k =>
      let c := o.close
      if c.infeasible then .bottom
      else
        .between (((c.bound (2 * k) (2 * k + 1)).map fun v => Bound.finite (-(v / 2))).getD .negInf)
          (((c.bound (2 * k + 1) (2 * k)).map fun v => Bound.finite (v / 2)).getD .posInf)

/-- The quantity `a * x` for a coefficient `1` or `-1`. -/
def unitTerm? (a : Int) : Option Nat :=
  (o.index? name).bind fun k =>
    if a = 1 then some (2 * k) else if a = -1 then some (2 * k + 1) else none

/-- The indices `i` and `j` if the variable part of a form is `V j - V i`: two terms with
coefficients `1` or `-1`. -/
def difference? : Option (Nat × Nat) :=
  match f.support with
  | [(x, a), (y, b)] => do
    let j ← o.unitTerm? x a
    let i ← o.unitTerm? y b
    return (Dbm.twin i, j)
  | _ => none

/-- The interval of a linear form.  A difference of two quantities is read off the matrix, and any
other form is bounded term by term. -/
def eval : Interval :=
  if o.infeasible then .bottom
  else
    match o.difference? f with
    | some (i, j) =>
      let c := o.close
      .between
        (((c.bound j i).bind fun u => Word.sub? f.constant u).elim .negInf .finite)
        (((c.bound i j).bind fun u => Word.add? u f.constant).elim .posInf .finite)
    | none =>
      f.terms.foldl (fun acc (v, a) => acc.add ((o.bounds v).mul (.constant a)))
        (.constant f.constant)

/-! ## Constraints -/

def setBounds (i : Interval) : Octagon :=
  if i.isEmpty then { o with infeasible := true }
  else
    let o := o.addVar name
    match o.index? name with
    | none => o
    | some k =>
      let o := match i.high.toFinite?.bind (Word.mul? · 2) with
        | some c => o.constrain (2 * k + 1) (2 * k) c
        | none => o
      let o := match i.low.toFinite?.bind (Word.mul? · (-2)) with
        | some c => o.constrain (2 * k) (2 * k + 1) c
        | none => o
      o.close

/-- The quantity of a variable or of its negation, by the sign of a coefficient. -/
def signedTerm? (a : Int) : Option Nat :=
  (o.index? name).map fun k => if 0 < a then 2 * k else 2 * k + 1

/-- Bound each term of `f ≤ 0` by the least value of the others. -/
def guardTerms : Octagon :=
  f.support.foldl (fun o (v, a) =>
    match (o.eval (f.drop v)).low with
    | .finite low =>
      o.setBounds v ((o.bounds v).meet ((Interval.atMost (Word.satNeg low)).mulPreimage a))
    | _ => o) o

def isUnit (a : Int) : Bool := a == 1 || a == -1

/-- Meet with `f ≤ 0`.  Constraints on one or two variables with coefficients `1` or `-1` go into
the matrix, and others refine the bounds of their variables. -/
def guardLe : Except Fault Octagon := do
  let o := o.addVars f.supportVars
  let o ← match f.support with
    | [] => pure (if 0 < f.constant then { o with infeasible := true } else o)
    | [(x, a)] =>
      if isUnit a then
        match o.signedTerm? x a, Word.mul? f.constant (-2) with
        | some p, some c => pure (o.constrain (Dbm.twin p) p c)
        | _, _ => pure o
      else pure (o.guardTerms f)
    | [(x, a), (y, b)] =>
      if isUnit a && isUnit b then
        match o.signedTerm? x a, o.signedTerm? y b with
        | some p, some q => pure (o.constrain (Dbm.twin q) p (← Word.neg f.constant))
        | _, _ => pure o
      else pure (o.guardTerms f)
    | _ => pure (o.guardTerms f)
  return o.close

/-- Meet with a linear constraint.  A disequality only helps against a constant. -/
def guard (c : LinearConstraint) : Except Fault Octagon :=
  if o.infeasible then .ok o
  else
    match c.relation with
    | .ne => .ok (if (o.eval c.form).constant? = some 0 then { o with infeasible := true } else o)
    | .eq => do (← o.guardLe c.form).guardLe (← c.form.neg)
    | .le => o.guardLe c.form

/-! ## Assignments -/

/-- The assignment `x := x + c` moves every bound that mentions `x`. -/
def translate (c : Int) : Except Fault Octagon :=
  match o.index? name with
  | none => .ok o
  | some k => do
    if (o.bound (2 * k + 1) (2 * k)).isSome || (o.bound (2 * k) (2 * k + 1)).isSome then
      let _ ← Word.mul 2 c
    let weight (i : Nat) : Int := if i = 2 * k then 1 else if i = 2 * k + 1 then -1 else 0
    return { o with matrix := o.matrix.map fun i j e => e.shift ((weight j - weight i) * c) }

/-- The assignment `x := f`.  It is exact if `f` is a constant, `x` plus a constant, or another
variable or its negation plus a constant; otherwise only the interval of `f` is kept. -/
def assign : Except Fault Octagon := do
  if o.infeasible then return o
  let o := (o.addVar name).addVars f.vars
  let general : Octagon := (o.forget name).setBounds name (o.eval f)
  match f.coeff name, f.support.filter (·.1 != name) with
  | 1, [] => o.translate name f.constant
  | 0, [] => return (o.forget name).setBounds name (.constant f.constant)
  | 0, [(y, a)] =>
    if isUnit a then
      let o := o.forget name
      match o.index? name, o.unitTerm? y a with
      | some k, some q =>
        return ((o.constrain q (2 * k) f.constant).constrain (2 * k) q
          (← Word.neg f.constant)).close
      | _, _ => return o
    else return general
  | _, _ => return general

/-! ## Order -/

/-- Combine two octagons entry by entry over their joint variables. -/
def pointwise (f : Ceiling → Ceiling → Ceiling) (o p : Octagon) : Octagon :=
  let (o, p) := o.align p
  { o with matrix := o.matrix.zipWith f p.matrix }

def le (o p : Octagon) : Bool :=
  let o := o.close
  if o.infeasible then true
  else if p.infeasible then false
  else
    let (o, p) := o.align p
    o.matrix.all₂ Ceiling.le p.matrix

def join : Octagon :=
  let o := o.close
  let p := p.close
  if o.infeasible then p
  else if p.infeasible then o
  else o.pointwise Ceiling.max p

def meet : Octagon :=
  if o.infeasible || p.infeasible then bottom else (o.pointwise Ceiling.min p).close

def widen : Octagon :=
  if o.isBottom then p
  else if p.infeasible then o
  else o.pointwise (fun a b => if b.le a then a else none) p

/-- Missing bounds are taken from the other octagon. -/
def narrow : Octagon :=
  if o.infeasible || p.infeasible then bottom
  else (o.pointwise (fun a b => if a.isNone then b else a) p).close

instance : Domain Octagon where
  bottom := bottom
  top := top
  isBottom o := pure o.isBottom
  isTop o := pure o.isTop
  le o p := pure (o.le p)
  join o p := pure (o.join p)
  meet o p := pure (o.meet p)
  widen o p := pure (o.widen p)
  narrow o p := pure (o.narrow p)

/-! ## Text -/

/-- The interval of one variable as constraints. -/
def boundTexts (i : Interval) : List String :=
  match i.constant? with
  | some c => [name ++ " == " ++ toString c]
  | none =>
    (i.low.toFinite?.map fun l => name ++ " >= " ++ toString l).toList ++
      (i.high.toFinite?.map fun h => name ++ " <= " ++ toString h).toList

/-- The relations between variables number `k` and `l`. -/
def pairTexts (k l : Nat) (x y : String) : Except Fault (List String) := do
  let at? (c : Ceiling) (left op right : String) : List String :=
    (c.map fun v => left ++ op ++ right ++ toString v).toList
  let differences :=
    at? (o.bound (2 * l) (2 * k)) x " - " (y ++ " <= ") ++
      at? (o.bound (2 * k) (2 * l)) y " - " (x ++ " <= ") ++
      at? (o.bound (2 * l + 1) (2 * k)) x " + " (y ++ " <= ")
  match o.bound (2 * k) (2 * l + 1) with
  | some v => return differences ++ [x ++ " + " ++ y ++ " >= " ++ toString (← Word.neg v)]
  | none => return differences

/-- The constraints of the closed octagon: for each variable its interval, then its relations to
the variables after it. -/
def constraints : Except Fault (List String) := do
  if o.infeasible then return ["false"]
  let c := o.close
  let vars := c.vars.toList.zipIdx
  let lines ← vars.mapM fun (x, k) => do
    let pairs ← (vars.drop (k + 1)).mapM fun (y, l) => c.pairTexts k l x y
    return boundTexts x (c.bounds x) ++ pairs.flatten
  return lines.flatten

end Octagon
end StaticAnalysis
