import StaticAnalysis.Proofs.Numeric.Intervals
import StaticAnalysis.Proofs.Order.Containers
import StaticAnalysis.Relation.Boxes

/-!
# Order of boxes

A box that is combined from two boxes lists, for each variable of either, the combination of their
intervals unless that is unbounded (`get?_combine`).  Everything about joins and widenings of boxes
is read off from that.
-/

namespace StaticAnalysis

open StaticAnalysis.Interval SortedMap

namespace Boxes

variable {b c : Boxes} {f : Interval → Interval → Interval} {v : String} {i : Interval}

/-- There is a valuation: the box is not marked as infeasible and lists no empty interval. -/
structure Feasible (b : Boxes) : Prop where
  infeasible : b.infeasible = false
  interval : ∀ v i, b.intervals.get? v = some i → i.isEmpty = false

lemma Feasible.bounds (hb : b.Feasible) (v : String) :
    b.bounds v = (b.intervals.get? v).getD .top := by
  simp [Boxes.bounds, hb.infeasible, getD_eq]

lemma Feasible.isEmpty_bounds (hb : b.Feasible) (v : String) : (b.bounds v).isEmpty = false := by
  rw [hb.bounds]
  cases h : b.intervals.get? v with
  | none => rfl
  | some i => exact hb.interval v i h

lemma get?_set (hi : i.isEmpty = false) (w : String) :
    (b.set v i).infeasible = b.infeasible ∧ (b.set v i).intervals.get? w =
      if w = v then (if i.isTop then none else some i) else b.intervals.get? w := by
  unfold set
  rw [if_neg (by simp [hi])]
  split
  next htop => exact ⟨rfl, by rw [get?_erase]⟩
  next htop => exact ⟨rfl, by rw [get?_insert]⟩

lemma get?_foldl_set {g : String → Interval} (hg : ∀ v, (g v).isEmpty = false) (l : List String)
    (r : Boxes) (w : String) :
    (l.foldl (fun r v => r.set v (g v)) r).infeasible = r.infeasible ∧
      (l.foldl (fun r v => r.set v (g v)) r).intervals.get? w =
        if w ∈ l then (if (g w).isTop then none else some (g w)) else r.intervals.get? w := by
  induction l generalizing r with
  | nil => simp
  | cons v l ih =>
    obtain ⟨hf, hget⟩ := ih (r.set v (g v))
    obtain ⟨hf', hget'⟩ := get?_set (b := r) (v := v) (hg v) w
    refine ⟨hf.trans hf', hget.trans ?_⟩
    rw [hget']
    by_cases hw : w ∈ l
    · simp [hw]
    · by_cases hv : w = v
      · subst hv
        simp
      · simp [hw, hv]

section Combine

variable (hb : b.Feasible) (hc : c.Feasible)
  (hf : ∀ i j, i.isEmpty = false → (f i j).isEmpty = false)
include hb hc hf

lemma get?_combine (v : String) :
    (b.combine f c).infeasible = false ∧ (b.combine f c).intervals.get? v =
      if v ∈ b.intervals.keys ++ c.intervals.keys then
        (if (f (b.bounds v) (c.bounds v)).isTop then none else some (f (b.bounds v) (c.bounds v)))
      else none := by
  have htop : (f .top .top).isEmpty = false := hf _ _ rfl
  unfold combine
  simp only [hb.infeasible, hc.infeasible, Bool.false_eq_true, if_false, htop]
  exact get?_foldl_set (fun v => hf _ _ (hb.isEmpty_bounds v)) _ top v

lemma eq_of_get?_combine (h : (b.combine f c).intervals.get? v = some i) :
    i = f (b.bounds v) (c.bounds v) := by
  rw [(get?_combine hb hc hf v).2] at h
  split at h
  · split at h
    · cases h
    · cases h; rfl
  · cases h

lemma feasible_combine : (b.combine f c).Feasible where
  infeasible := (get?_combine hb hc hf "").1
  interval v i h := by
    rw [eq_of_get?_combine hb hc hf h]
    exact hf _ _ (hb.isEmpty_bounds v)

lemma bounds_combine (v : String) : (b.combine f c).bounds v = f (b.bounds v) (c.bounds v) ∨
    (b.combine f c).bounds v = .top := by
  rw [(feasible_combine hb hc hf).bounds]
  cases h : (b.combine f c).intervals.get? v with
  | none => exact .inr rfl
  | some i => exact .inl (eq_of_get?_combine hb hc hf h)

end Combine

lemma le_iff (hb : b.Feasible) (hc : c.Feasible) :
    b.le c ↔ ∀ v i, c.intervals.get? v = some i → (b.bounds v).le i := by
  simp only [le, hb.infeasible, hc.infeasible, Bool.false_or, Bool.not_false, Bool.true_and,
    List.all_eq_true, Prod.forall]
  exact ⟨fun h v i hi => h v i (get?_eq_some_iff.1 hi),
    fun h v i hi => h v i (get?_eq_some_iff.2 hi)⟩

lemma le_combine {d : Boxes} (hd : d.Feasible) (hb : b.Feasible) (hc : c.Feasible)
    (hf : ∀ i j, i.isEmpty = false → (f i j).isEmpty = false)
    (h : ∀ v, (d.bounds v).le (f (b.bounds v) (c.bounds v))) : d.le (b.combine f c) := by
  refine (le_iff hd (feasible_combine hb hc hf)).2 fun v i hi => ?_
  rw [eq_of_get?_combine hb hc hf hi]
  exact h v

/-! ## Joins and widenings -/

section Bounds

variable (hb : b.Feasible) (hc : c.Feasible)
include hb hc

lemma feasible_join : (b.combine join c).Feasible :=
  feasible_combine hb hc fun _ _ => isEmpty_join_left

lemma le_join_left : b.le (b.combine join c) :=
  le_combine hb hb hc (fun _ _ => isEmpty_join_left) fun _ => Interval.le_join_left _ _

lemma le_join_right : c.le (b.combine join c) :=
  le_combine hc hb hc (fun _ _ => isEmpty_join_left) fun _ => Interval.le_join_right _ _

lemma le_widen_left : b.le (b.combine widen c) :=
  le_combine hb hb hc (fun _ _ => isEmpty_widen_left) fun _ => Interval.le_widen_left _ _

lemma le_widen_join : c.le (b.combine widen (b.combine join c)) := by
  refine le_combine hc hb (feasible_join hb hc) (fun _ _ => isEmpty_widen_left) fun v => ?_
  refine le_trans ?_ (le_widen_right _ _)
  rcases bounds_combine hb hc (fun _ _ => isEmpty_join_left) v with h | h <;> rw [h]
  exacts [Interval.le_join_right _ _, le_top _]

lemma le_join_comm : (b.combine join c).le (c.combine join b) := by
  have hbc := feasible_join hb hc
  have heq : ∀ v, (b.combine join c).intervals.get? v = (c.combine join b).intervals.get? v := by
    intro v
    rw [(get?_combine hb hc (fun _ _ => isEmpty_join_left) v).2,
      (get?_combine hc hb (fun _ _ => isEmpty_join_left) v).2,
      join_comm (hb.isEmpty_bounds v) (hc.isEmpty_bounds v)]
    simp only [List.mem_append, or_comm]
  refine (le_iff hbc (feasible_join hc hb)).2 fun v i hi => ?_
  rw [hbc.bounds, heq v, hi]
  exact le_self i

end Bounds

end Boxes
end StaticAnalysis
