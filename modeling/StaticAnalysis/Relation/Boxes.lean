import StaticAnalysis.Numeric.Interval
import StaticAnalysis.Relation.LinearForm

/-!
# Boxes

One interval per variable, without relations between variables.  A variable that is not listed is
unbounded.  Once `infeasible` is set no valuation is described and the listed intervals mean
nothing.
-/

namespace StaticAnalysis

structure Boxes where
  intervals : SortedMap String Interval
  infeasible : Bool
deriving DecidableEq

namespace Boxes

def top : Boxes := ⟨.empty, false⟩

variable (b : Boxes)

def bounds (name : String) : Interval :=
  if b.infeasible then .bottom else b.intervals.getD name .top

/-- The box with a new interval for one variable. -/
def set (name : String) (i : Interval) : Boxes :=
  if i.isEmpty then { b with infeasible := true }
  else if i.isTop then { b with intervals := b.intervals.erase name }
  else { b with intervals := b.intervals.insert name i }

def forget (name : String) : Boxes := b.set name .top

def eval (f : LinearForm) : Interval :=
  if b.infeasible then .bottom
  else f.terms.foldl (fun acc (v, a) => acc.add ((b.bounds v).mul (.constant a)))
    (.constant f.constant)

/-- The constraint `f ≤ 0` bounds each term by the least value of the others. -/
def guardLe (f : LinearForm) : Boxes :=
  if .finite 0 < (b.eval f).low then { b with infeasible := true }
  else
    f.terms.foldl (fun b (v, a) =>
      match (b.eval (f.drop v)).low with
      | .finite low => b.set v ((b.bounds v).meet
        ((Interval.atMost (Word.satNeg low)).mulPreimage a))
      | _ => b) b

def guard (c : LinearConstraint) : Except Fault Boxes :=
  match c.relation with
  | .le => return b.guardLe c.form
  | .eq => return (b.guardLe c.form).guardLe (← c.form.neg)
  | .ne => return if (b.eval c.form).constant? = some 0 then { b with infeasible := true } else b

/-- Whether every constraint of `c` is implied by `b`. -/
def le (b c : Boxes) : Bool :=
  b.infeasible || (!c.infeasible && c.intervals.entries.all fun (v, i) => (b.bounds v).le i)

def combine (f : Interval → Interval → Interval) (b c : Boxes) : Boxes :=
  let whole (b : Boxes) : Interval := if b.infeasible then .bottom else .top
  if (f (whole b) (whole c)).isEmpty then ⟨.empty, true⟩
  else
    (b.intervals.keys ++ c.intervals.keys).foldl
      (fun r v => r.set v (f (b.bounds v) (c.bounds v))) top

def constraints : List String :=
  if b.infeasible then ["false"]
  else b.intervals.entries.map fun (v, i) => v ++ " ∈ " ++ i.text

end Boxes
end StaticAnalysis
