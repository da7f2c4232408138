import StaticAnalysis.Proofs.Relation.Affine
import StaticAnalysis.Proofs.Relation.Boxes
import StaticAnalysis.Proofs.Relation.Octagons
import StaticAnalysis.Relation.Relation

/-!
# Order of relations

A relation is *recognised* if it is found to be empty whenever it is: either the test for emptiness
says so, or there is a valuation.  Octagons need not be, as sums of bounds that are too large for a
word are left out when an octagon is closed.  On recognised relations of one kind joins and
widenings are upper bounds.
-/

namespace StaticAnalysis

open Octagon StaticAnalysis.Affine Boxes

namespace Octagon

variable {o p : Octagon}

def respects (o : Octagon) (x : String → Int) : Bool :=
  (List.range (2 * o.vars.size)).all fun i => (List.range (2 * o.vars.size)).all fun j =>
    (o.bound i j).all fun b => decide (quantity o.vars x j - quantity o.vars x i ≤ b)

lemma Holds.of_respects {x : String → Int} (ho : o.Square) (h : o.respects x) : o.Holds x := by
  intro i j a ha
  have hij : i < 2 * o.vars.size ∧ j < 2 * o.vars.size := by
    by_contra hij
    rw [Dbm.Square.bound_eq_none ho hij] at ha
    cases ha
  simp only [respects, List.all_eq_true, List.mem_range, bound, Option.all_eq_true,
    decide_eq_true_eq] at h
  exact h i hij.1 j hij.2 a ha

end Octagon

namespace Relation

variable {r s t : Relation}

def Proper : Relation → Prop
  | .none => True
  | .boxes b => b.Feasible
  | .octagon o => o.Satisfiable
  | .polyhedra o a => o.Satisfiable ∧ a.IsReduced ∧ a.infeasible = false

/-- The test for emptiness is right about the relation. -/
def Recognised (r : Relation) : Prop := r.isBottom = true ∨ r.Proper

lemma Proper.isBottom (h : r.Proper) : r.isBottom = false := by
  cases r with
  | none => rfl
  | boxes b => exact h.infeasible
  | octagon o => exact h.close
  | polyhedra o a =>
    obtain ⟨ho, -, haf⟩ := h
    exact Bool.or_eq_false_iff.2 ⟨ho.close, haf⟩

lemma Recognised.proper (h : r.Recognised) (hr : r.isBottom = false) : r.Proper :=
  h.resolve_left (by simp [hr])

inductive SameKind : Relation → Relation → Prop
  | none : SameKind .none .none
  | boxes (b c : Boxes) : SameKind (.boxes b) (.boxes c)
  | octagon (o p : Octagon) : SameKind (.octagon o) (.octagon p)
  | polyhedra (o p : Octagon) (a b : Affine) : SameKind (.polyhedra o a) (.polyhedra p b)

lemma sameKind_iff : SameKind r s ↔ r.kind = s.kind := by
  constructor
  · rintro (_ | _ | _ | _) <;> rfl
  · intro h
    cases r <;> cases s <;> cases h <;> constructor

lemma SameKind.refl (r : Relation) : SameKind r r := sameKind_iff.2 rfl

lemma SameKind.symm (h : SameKind r s) : SameKind s r :=
  sameKind_iff.2 (sameKind_iff.1 h).symm

lemma SameKind.join (h : SameKind r s) : SameKind r (r.join s) := by
  unfold Relation.join
  split
  · exact h
  · split
    · exact .refl r
    · cases h <;> constructor

/-- The parts of one relation are below those of another. -/
inductive PartsLe : Relation → Relation → Prop
  | none : PartsLe .none .none
  | boxes {b c : Boxes} (h : b.le c = true) : PartsLe (.boxes b) (.boxes c)
  | octagon {o p : Octagon} (h : o.le p = true) : PartsLe (.octagon o) (.octagon p)
  | polyhedra {o p : Octagon} {a b : Affine} (ho : o.le p = true) (ha : a.le b = true) :
    PartsLe (.polyhedra o a) (.polyhedra p b)

lemma PartsLe.le (h : PartsLe r s) : r.le s := by
  unfold Relation.le
  refine Bool.or_eq_true_iff.2 (.inr ?_)
  cases h with
  | none => rfl
  | boxes h | octagon h => exact h
  | polyhedra ho ha => exact Bool.and_eq_true_iff.2 ⟨ho, ha⟩

lemma Proper.le_self (h : r.Proper) : r.le r := by
  refine PartsLe.le ?_
  cases r with
  | none => exact .none
  | boxes b =>
    refine .boxes ((le_iff h h).2 fun v i hi => ?_)
    rw [Boxes.Feasible.bounds h, hi]
    exact Interval.le_self i
  | octagon o => exact .octagon (Octagon.Satisfiable.le_self h)
  | polyhedra o a => exact .polyhedra h.1.le_self ((le_iff_solves h.2 h.2).2 fun _ => id)

/-! ## Relations with valuations -/

namespace Proper

variable (hr : r.Proper) (hs : s.Proper) (h : SameKind r s)
include hr hs

lemma join_eq : r.join s = combine Interval.join Octagon.join Affine.join r s := by
  rw [Relation.join, if_neg (by simp [hr.isBottom]), if_neg (by simp [hs.isBottom])]

omit hs in
lemma widen_eq : r.widen s = combine Interval.widen Octagon.widen Affine.widen r s := by
  rw [Relation.widen, if_neg (by simp [hr.isBottom])]

include h

lemma join : (r.join s).Proper := by
  rw [hr.join_eq hs]
  cases h with
  | none => trivial
  | boxes b c => exact feasible_join hr hs
  | octagon o p => exact Satisfiable.join hr hs
  | polyhedra o p a b => exact ⟨hr.1.join hs.1, Solvable.join hr.2 hs.2⟩

lemma le_join_left : r.le (r.join s) := by
  rw [hr.join_eq hs]
  refine PartsLe.le ?_
  cases h with
  | none => exact .none
  | boxes b c => exact .boxes (le_join_left hr hs)
  | octagon o p => exact .octagon (le_join_left hr hs)
  | polyhedra o p a b => exact .polyhedra (le_join_left hr.1 hs.1) (le_join_left hr.2 hs.2)

lemma le_join_right : s.le (r.join s) := by
  rw [hr.join_eq hs]
  refine PartsLe.le ?_
  cases h with
  | none => exact .none
  | boxes b c => exact .boxes (le_join_right hr hs)
  | octagon o p => exact .octagon (le_join_right hr hs)
  | polyhedra o p a b => exact .polyhedra (le_join_right hr.1 hs.1) (le_join_right hr.2 hs.2)

lemma le_join_comm : (r.join s).le (s.join r) := by
  rw [hr.join_eq hs, hs.join_eq hr]
  refine PartsLe.le ?_
  cases h with
  | none => exact .none
  | boxes b c => exact .boxes (le_join_comm hr hs)
  | octagon o p => exact .octagon (le_join_comm hr hs)
  | polyhedra o p a b => exact .polyhedra (le_join_comm hr.1 hs.1) (le_join_comm hr.2 hs.2)

lemma widen : (r.widen s).Proper := by
  rw [hr.widen_eq]
  cases h with
  | none => trivial
  | boxes b c => exact feasible_combine hr hs fun _ _ => Interval.isEmpty_widen_left
  | octagon o p => exact Satisfiable.widen hr hs
  | polyhedra o p a b => exact ⟨hr.1.widen hs.1, Solvable.join hr.2 hs.2⟩

lemma le_widen_left : r.le (r.widen s) := by
  rw [hr.widen_eq]
  refine PartsLe.le ?_
  cases h with
  | none => exact .none
  | boxes b c => exact .boxes (le_widen_left hr hs)
  | octagon o p => exact .octagon (le_widen_left hr hs)
  | polyhedra o p a b => exact .polyhedra (le_widen_left hr.1 hs.1) (Affine.le_join_left hr.2 hs.2)

lemma le_widen_join : s.le (r.widen (r.join s)) := by
  rw [hr.join_eq hs, hr.widen_eq]
  refine PartsLe.le ?_
  cases h with
  | none => exact .none
  | boxes b c => exact .boxes (le_widen_join hr hs)
  | octagon o p => exact .octagon (le_widen_join hr hs)
  | polyhedra o p a b => exact .polyhedra (le_widen_join hr.1 hs.1) (le_widen_join hr.2 hs.2)

end Proper

/-! ## Recognised relations -/

/-- If the first relation is not empty, the second is not either and is above it. -/
def Under (r s : Relation) : Prop := r.isBottom = false → s.isBottom = false ∧ r.le s = true

lemma under_of_isBottom (h : r.isBottom) (s : Relation) : Under r s := fun hr => by
  rw [h] at hr
  cases hr

lemma Proper.under (hs : s.Proper) (h : r.le s) : Under r s := fun _ => ⟨hs.isBottom, h⟩

lemma Recognised.under_self (h : r.Recognised) : Under r r :=
  h.elim (under_of_isBottom · r) fun h => h.under h.le_self

namespace Recognised

variable (hr : r.Recognised) (hs : s.Recognised) (h : SameKind r s)
include hr hs h

lemma join_cases : (r.isBottom ∧ r.join s = s) ∨
    (r.Proper ∧ s.isBottom ∧ r.join s = r) ∨ (r.Proper ∧ s.Proper ∧ (r.join s).Proper) := by
  rcases hr with hrb | hr
  · exact .inl ⟨hrb, if_pos hrb⟩
  · rcases hs with hsb | hs
    · refine .inr (.inl ⟨hr, hsb, ?_⟩)
      rw [Relation.join, if_neg (by simp [hr.isBottom]), if_pos hsb]
    · exact .inr (.inr ⟨hr, hs, hr.join hs h⟩)

lemma join : (r.join s).Recognised := by
  rcases hr.join_cases hs h with ⟨-, heq⟩ | ⟨-, -, heq⟩ | ⟨-, -, hj⟩
  · rwa [heq]
  · rwa [heq]
  · exact .inr hj

lemma under_join_left : Under r (r.join s) := by
  rcases hr.join_cases hs h with ⟨hrb, -⟩ | ⟨-, -, heq⟩ | ⟨hr, hs, hj⟩
  · exact under_of_isBottom hrb _
  · rw [heq]
    exact hr.under_self
  · exact hj.under (hr.le_join_left hs h)

lemma under_join_right : Under s (r.join s) := by
  rcases hr.join_cases hs h with ⟨-, heq⟩ | ⟨-, hsb, -⟩ | ⟨hr, hs, hj⟩
  · rw [heq]
    exact hs.under_self
  · exact under_of_isBottom hsb _
  · exact hj.under (hr.le_join_right hs h)

lemma under_join_comm : Under (r.join s) (s.join r) := by
  rcases hr.join_cases hs h with ⟨-, heq⟩ | ⟨-, -, heq⟩ | ⟨hr, hs, -⟩
  · rw [heq]
    exact hs.under_join_left hr h.symm
  · rw [heq]
    exact hs.under_join_right hr h.symm
  · exact (hs.join hr h.symm).under (hr.le_join_comm hs h)

lemma under_widen_right : Under s (r.widen (r.join s)) := by
  rcases hr.join_cases hs h with ⟨hrb, heq⟩ | ⟨-, hsb, -⟩ | ⟨hr, hs, hj⟩
  · rw [heq, Relation.widen, if_pos hrb]
    exact hs.under_self
  · exact under_of_isBottom hsb _
  · exact (hr.widen hj h.join).under (hr.le_widen_join hs h)

lemma widen_spec (hne : r.isBottom = false → s.isBottom = false) :
    (r.widen s).Recognised ∧ Under r (r.widen s) := by
  rcases hr with hrb | hr
  · rw [Relation.widen, if_pos hrb]
    exact ⟨hs, under_of_isBottom hrb _⟩
  · have hs := hs.proper (hne hr.isBottom)
    exact ⟨.inr (hr.widen hs h), (hr.widen hs h).under (hr.le_widen_left hs h)⟩

end Recognised

end Relation
end StaticAnalysis
