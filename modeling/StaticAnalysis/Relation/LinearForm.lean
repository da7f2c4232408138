import StaticAnalysis.Arith.Word
import StaticAnalysis.Order.SortedMap
import StaticAnalysis.Program.Syntax

/-!
# Linear forms and constraints

A linear form is a sum of variables with word coefficients plus a word constant.  Relational domains
see the program through these: `Expr.linear?` gives the form of an expression and `Cond.linear?` the
constraint of a comparison, over the variables that the caller tracks.

What is computed here holds no zero coefficient (`trim`), but a form may be given with one.  Sums
and multiples that leave the word range are not linear forms at all (`add?`, `scale?`), while
`ofTerms` and `neg` fault there.
-/

namespace StaticAnalysis

/-- The form `∑ coeffs v * v + constant`. -/
structure LinearForm where
  coeffs : SortedMap String Int
  constant : Int
deriving DecidableEq

namespace LinearForm

def const (c : Int) : LinearForm := ⟨.empty, c⟩

def var (name : String) : LinearForm := ⟨.singleton name 1, 0⟩

/-- The form without the variables whose coefficient is zero. -/
def trim (coeffs : SortedMap String Int) : SortedMap String Int := coeffs.filter fun _ a => a != 0

/-- The form with the given terms; coefficients of a repeated variable are added up. -/
def ofTerms (terms : List (String × Int)) (constant : Int) : Except Fault LinearForm := do
  let coeffs ← terms.foldlM (fun m (v, a) => return m.insert v (← Word.add (m.getD v 0) a)) .empty
  return ⟨trim coeffs, constant⟩

variable (f : LinearForm)

def coeff (name : String) : Int := f.coeffs.getD name 0

def isConstant : Bool := f.coeffs.isEmpty

def terms : List (String × Int) := f.coeffs.entries

/-- The terms whose coefficient is not zero. -/
def support : List (String × Int) := f.terms.filter (·.2 != 0)

def vars : List String := f.coeffs.keys

/-- The variables whose coefficient is not zero. -/
def supportVars : List String := f.support.map (·.1)

def drop (name : String) : LinearForm := ⟨f.coeffs.erase name, f.constant⟩

def neg : Except Fault LinearForm :=
  if (f.constant :: f.coeffs.values).all fun a => Word.fits (-a) then
    .ok ⟨f.coeffs.mapWithKey fun _ a => -a, -f.constant⟩
  else .error (.overflow .negate)

def add? (f g : LinearForm) : Option LinearForm := do
  let coeffs ← g.terms.foldlM (fun m (v, a) => return m.insert v (← Word.add? (m.getD v 0) a))
    f.coeffs
  return ⟨trim coeffs, ← Word.add? f.constant g.constant⟩

def scale? (k : Int) : Option LinearForm :=
  if (f.constant :: f.coeffs.values).all fun a => Word.fits (a * k) then
    some ⟨trim (f.coeffs.mapWithKey fun _ a => a * k), f.constant * k⟩
  else none

def text : String :=
  let terms := f.terms.map fun (v, a) => toString a ++ "*" ++ v
  " + ".intercalate
    (if f.constant != 0 || terms.isEmpty then terms ++ [toString f.constant] else terms)

end LinearForm

/-- How a linear form compares with zero. -/
inductive ZeroRelation where
  | eq
  | le
  | ne
deriving DecidableEq, Repr

/-- The constraint that a form is equal to, at most, or different from zero. -/
structure LinearConstraint where
  form : LinearForm
  relation : ZeroRelation
deriving DecidableEq

/-! ## Linear expressions -/

/-- The linear form of an expression over the tracked variables.  The right operand is looked at
only if the left one is linear. -/
def Expr.linear? (tracked : String → Bool) : Expr → OptionT (Except Fault) LinearForm
  | .const c => pure (.const c)
  | .read (.var v) => if tracked v then pure (.var v) else failure
  | .neg e => do liftM (← e.linear? tracked).neg
  | .arith .add a b => do
    let f ← a.linear? tracked
    let g ← b.linear? tracked
    OptionT.mk (pure (f.add? g))
  | .arith .sub a b => do
    let f ← a.linear? tracked
    let g : LinearForm ← liftM (← b.linear? tracked).neg
    OptionT.mk (pure (f.add? g))
  | .arith .mul a b => do
    let f ← a.linear? tracked
    let g ← b.linear? tracked
    if f.isConstant then OptionT.mk (pure (g.scale? f.constant))
    else if g.isConstant then OptionT.mk (pure (f.scale? g.constant))
    else failure
  | _ => failure

/-- The linear form of a difference of two expressions. -/
def Expr.difference? (tracked : String → Bool) (a b : Expr) :
    OptionT (Except Fault) LinearForm := do
  let f ← a.linear? tracked
  let g : LinearForm ← liftM (← b.linear? tracked).neg
  OptionT.mk (pure (f.add? g))

/-- The linear constraint of a comparison.  Over the integers `a < b` is `a - b + 1 ≤ 0`. -/
def CmpOp.linear? (tracked : String → Bool) (op : CmpOp) (a b : Expr) :
    OptionT (Except Fault) LinearConstraint := do
  let strict (f : LinearForm) : OptionT (Except Fault) LinearForm :=
    OptionT.mk (pure (f.add? (.const 1)))
  match op with
  | .eq => return ⟨← a.difference? tracked b, .eq⟩
  | .ne => return ⟨← a.difference? tracked b, .ne⟩
  | .le => return ⟨← a.difference? tracked b, .le⟩
  | .ge => return ⟨← b.difference? tracked a, .le⟩
  | .lt => return ⟨← strict (← a.difference? tracked b), .le⟩
  | .gt => return ⟨← strict (← b.difference? tracked a), .le⟩

/-- The linear constraint of a condition that is a comparison. -/
def Cond.linear? (tracked : String → Bool) : Cond → OptionT (Except Fault) LinearConstraint
  | .cmp op a b => op.linear? tracked a b
  | _ => failure

end StaticAnalysis
