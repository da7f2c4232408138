import StaticAnalysis.Relation.Affine
import StaticAnalysis.Relation.Boxes
import StaticAnalysis.Relation.Octagon

/-!
# Relations between variables

The relational part of an abstract state: what is known about the integer locals of the current
function beyond their single values.  A run of the analysis uses one kind throughout: nothing, one
interval per variable, an octagon, or an octagon together with affine equalities.  Two relations of
different kinds are never compared in earnest; the first one is kept.
-/

namespace StaticAnalysis

/-- Which relational domain is in use. -/
inductive RelationKind where
  | none
  | boxes
  | octagon
  | polyhedra
deriving DecidableEq, Repr

def RelationKind.text : RelationKind → String
  | .none => "none"
  | .boxes => "apron-interval"
  | .octagon => "octagon"
  | .polyhedra => "polyhedra"

inductive Relation where
  | none
  | boxes (b : Boxes)
  | octagon (o : Octagon)
  | polyhedra (o : Octagon) (a : Affine)
deriving DecidableEq

namespace Relation

def unconstrained : RelationKind → Relation
  | .none => .none
  | .boxes => .boxes .top
  | .octagon => .octagon .top
  | .polyhedra => .polyhedra .top .top

def kind : Relation → RelationKind
  | .none => .none
  | .boxes _ => .boxes
  | .octagon _ => .octagon
  | .polyhedra .. => .polyhedra

def isEnabled : Relation → Bool
  | .none => false
  | _ => true

def isBottom : Relation → Bool
  | .none => false
  | .boxes b => b.infeasible
  | .octagon o => o.isBottom
  | .polyhedra o a => o.isBottom || a.infeasible

def vars : Relation → List String
  | .none => []
  | .boxes b => b.intervals.keys
  | .octagon o => o.vars.toList
  | .polyhedra o a => (o.vars.union a.vars).toList

/-- Pass the variables that the equalities fix on to the octagon, and emptiness both ways. -/
def reduce (o : Octagon) (a : Affine) : Relation :=
  if o.isBottom || a.infeasible then .polyhedra .bottom .bottom
  else
    let o := a.vars.toList.foldl (fun o v =>
      let value := a.eval (.var v)
      if value.constant?.isSome && !(o.bounds v).le value then o.setBounds v value else o) o
    .polyhedra o (if o.isBottom then .bottom else a)

/-! ## Transfer -/

def forget (name : String) : Relation → Relation
  | .none => .none
  | .boxes b => .boxes (b.forget name)
  | .octagon o => .octagon (o.forget name)
  | .polyhedra o a => .polyhedra (o.forget name) (a.forget name)

def removeVar (name : String) : Relation → Relation
  | .none => .none
  | .boxes b => .boxes (b.forget name)
  | .octagon o => .octagon (o.removeVar name)
  | .polyhedra o a => .polyhedra (o.removeVar name) (a.removeVar name)

def project (r : Relation) (keep : String → Bool) : Relation :=
  r.vars.foldl (fun r v => if keep v then r else r.removeVar v) r

/-- The assignment `x := f`; `value` bounds a right-hand side that is not linear. -/
def assign (r : Relation) (name : String) (form : Option LinearForm) (value : Interval) :
    Except Fault Relation :=
  match r, form with
  | .none, _ => .ok .none
  | .boxes b, _ => .ok (.boxes (b.set name value))
  | .octagon o, some f => return .octagon (← o.assign name f)
  | .octagon o, Option.none => .ok (.octagon ((o.forget name).setBounds name value))
  | .polyhedra o a, some f => return reduce (← o.assign name f) (a.assign name f)
  | .polyhedra o a, Option.none =>
    let a := a.forget name
    .ok (.polyhedra ((o.forget name).setBounds name value)
      (value.constant?.elim a fun c => a.assign name (.const c)))

def setBounds (r : Relation) (name : String) (value : Interval) : Except Fault Relation :=
  match r with
  | .none => .ok .none
  | .boxes b => .ok (.boxes (b.set name ((b.bounds name).meet value)))
  | .octagon o => .ok (.octagon (o.setBounds name value))
  | .polyhedra o a => do
    let o := o.setBounds name value
    let a ←
      if value.isEmpty then pure .bottom
      else match value.constant? with
        | some c => pure (a.guard ⟨⟨.singleton name 1, ← Word.neg c⟩, .eq⟩)
        | Option.none => pure a
    return reduce o a

def guard (r : Relation) (c : LinearConstraint) : Except Fault Relation :=
  match r with
  | .none => .ok .none
  | .boxes b => return .boxes (← b.guard c)
  | .octagon o => return .octagon (← o.guard c)
  | .polyhedra o a => return reduce (← o.guard c) (a.guard c)

def eval (r : Relation) (f : LinearForm) : Interval :=
  match r with
  | .none => .top
  | .boxes b => b.eval f
  | .octagon o => o.eval f
  | .polyhedra o a => (o.eval f).meet (a.eval f)

def bounds (r : Relation) (name : String) : Interval := r.eval (.var name)

/-! ## Order -/

def le (r s : Relation) : Bool :=
  r.isBottom ||
    match r, s with
    | .boxes b, .boxes c => b.le c
    | .octagon o, .octagon p => o.le p
    | .polyhedra o a, .polyhedra p b => o.le p && a.le b
    | _, _ => true

def combine (boxes : Interval → Interval → Interval) (octagons : Octagon → Octagon → Octagon)
    (affine : Affine → Affine → Affine) (r s : Relation) : Relation :=
  match r, s with
  | .boxes b, .boxes c => .boxes (b.combine boxes c)
  | .octagon o, .octagon p => .octagon (octagons o p)
  | .polyhedra o a, .polyhedra p b => .polyhedra (octagons o p) (affine a b)
  | _, _ => r

def join (r s : Relation) : Relation :=
  if r.isBottom then s
  else if s.isBottom then r
  else combine Interval.join Octagon.join Affine.join r s

def meet (r s : Relation) : Relation :=
  match combine Interval.meet Octagon.meet Affine.meet r s with
  | .polyhedra o a => reduce o a
  | other => other

def widen (r s : Relation) : Relation :=
  if r.isBottom then s else combine Interval.widen Octagon.widen Affine.widen r s

def narrow (r s : Relation) : Relation :=
  combine Interval.narrow Octagon.narrow Affine.narrow r s

/-! ## Text -/

def constraints : Relation → Except Fault (List String)
  | .none => .ok []
  | .boxes b => .ok b.constraints
  | .octagon o => o.constraints
  | .polyhedra o a => return (← o.constraints) ++ a.constraints

def braced (constraints : List String) : String :=
  "\x7b" ++ ", ".intercalate constraints ++ "\x7d"

def text (r : Relation) : Except Fault String := return braced (← r.constraints)

end Relation
end StaticAnalysis
