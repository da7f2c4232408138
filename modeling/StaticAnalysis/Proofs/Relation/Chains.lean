import Mathlib.FieldTheory.Finiteness
import StaticAnalysis.Proofs.Numeric.Chains
import StaticAnalysis.Proofs.Relation.Order

/-!
# Widening relations comes to rest

Boxes come to rest variable by variable.  The variables of an octagon grow among finitely many, and
once they stay the same, each bound of the matrix stays or is dropped for good.  Equations come to
rest because the directions in which their solutions may move form a growing sequence of subspaces,
and only finitely many dimensions are left above the first.
-/

namespace StaticAnalysis

open StaticAnalysis.Interval SortedMap SortedSet

open Filter

namespace Interval

lemma widen_top {i : Interval} (hi : i.isEmpty = false) : i.widen .top = .top := by
  have hlow : (if Bound.negInf < i.low then Bound.negInf else i.low) = .negInf := by
    split
    next => rfl
    next hlt => exact Bound.le_negInf_iff.1 (not_lt.1 hlt)
  have hhigh : (if i.high < Bound.posInf then Bound.posInf else i.high) = .posInf := by
    split
    next => rfl
    next hlt => exact Bound.posInf_le_iff.1 (not_lt.1 hlt)
  rw [widen, if_neg (by simp [hi]), if_neg (by simp)]
  exact congrArg₂ Interval.mk hlow hhigh

lemma top_widen (i : Interval) : top.widen i = .top := by
  have hlow : ¬ i.low < Bound.negInf := not_lt.2 (Bound.negInf_le _)
  have hhigh : ¬ Bound.posInf < i.high := not_lt.2 (Bound.le_posInf _)
  rw [widen, if_neg (by simp)]
  split
  · rfl
  · exact congrArg₂ Interval.mk (if_neg hlow) (if_neg hhigh)

end Interval

namespace Boxes

lemma mem_keys_combine {b c : Boxes} {f : Interval → Interval → Interval} {v : String}
    (hb : b.Feasible) (hc : c.Feasible) (hf : ∀ i j, i.isEmpty = false → (f i j).isEmpty = false)
    (hv : v ∈ (b.combine f c).intervals.keys) : v ∈ b.intervals.keys ∨ v ∈ c.intervals.keys := by
  obtain ⟨i, hi⟩ := mem_keys.1 hv
  rw [(get?_combine hb hc hf v).2] at hi
  split at hi
  next hmem => exact List.mem_append.1 hmem
  next => cases hi

variable {b c : ℕ → Boxes} (hb : ∀ n, (b n).Feasible) (hc : ∀ n, (c n).Feasible)
  (h : ∀ n, b (n + 1) = (b n).combine Interval.widen (c n))
include hb hc h

lemma eventually_bounds_eq (v : String) : ∀ᶠ n in atTop, (b (n + 1)).bounds v = (b n).bounds v := by
  refine eventually_widen_eq (i := fun n => (b n).bounds v)
    (fun n => (hb n).isEmpty_bounds v) fun n => ?_
  rw [h n]
  rcases bounds_combine (hb n) (hc n) (fun _ _ => isEmpty_widen_left) v with hbounds | hbounds
  · exact ⟨_, hbounds⟩
  · exact ⟨.top, hbounds.trans (widen_top ((hb n).isEmpty_bounds v)).symm⟩

lemma mem_keys_of_widen {n : ℕ} {v : String} (hv : v ∈ (b (n + 1)).intervals.keys) :
    v ∈ (b n).intervals.keys := by
  by_contra hnot
  have hbounds : (b n).bounds v = .top := by rw [(hb n).bounds, get?_eq_none hnot]; rfl
  obtain ⟨i, hi⟩ := mem_keys.1 hv
  rw [h n, (get?_combine (hb n) (hc n) (fun _ _ => isEmpty_widen_left) v).2, hbounds,
    top_widen] at hi
  simp [Interval.isTop, Interval.top] at hi

lemma eventually_le : ∀ᶠ n in atTop, (b (n + 1)).le (b n) := by
  have hkeys : Antitone fun n => {v | v ∈ (b n).intervals.keys} :=
    antitone_nat_of_succ_le fun _ _ => mem_keys_of_widen hb hc h
  have hrest : ∀ᶠ n in atTop, ∀ v ∈ (b 0).intervals.keys, (b (n + 1)).bounds v = (b n).bounds v :=
    (eventually_all_finite (b 0).intervals.keys.finite_toSet).2 fun v _ =>
      eventually_bounds_eq hb hc h v
  refine hrest.mono fun n hn => (le_iff (hb (n + 1)) (hb n)).2 fun v i hi => ?_
  rw [hn v (hkeys (Nat.zero_le n) (mem_keys.2 ⟨i, hi⟩)), (hb n).bounds, hi]
  exact Interval.le_self i

end Boxes

namespace Octagon

variable {o p : ℕ → Octagon} (ho : ∀ n, (o n).Satisfiable) (hp : ∀ n, (p n).Satisfiable)
  (h : ∀ n, o (n + 1) = (o n).widen (p n))
include ho hp h

lemma eventually_le_of_vars {vars : SortedSet String} (hvars : ∀ n, (o n).vars = vars) :
    ∀ᶠ n in atTop, (o (n + 1)).le (o n) := by
  have hrest : ∀ᶠ n in atTop, ∀ ij ∈ Set.Iio (2 * vars.size) ×ˢ Set.Iio (2 * vars.size),
      (o (n + 1)).bound ij.1 ij.2 = (o n).bound ij.1 ij.2 := by
    refine (eventually_all_finite ((Set.finite_Iio _).prod (Set.finite_Iio _))).2 fun ij hij => ?_
    refine Chain.eventually_eq_of_absorbing (x := fun n => (o n).bound ij.1 ij.2) none fun n => ?_
    have hin : ij.1 < 2 * (o n).vars.size ∧ ij.2 < 2 * (o n).vars.size := by rwa [hvars n]
    have hbound := bound_widen (i := ij.1) (j := ij.2) (ho n) (hp n)
    rw [← h n, hvars (n + 1), ← hvars n] at hbound
    rw [hbound hin, entry_self hin, keep]
    split
    exacts [.inl rfl, .inr rfl]
  refine hrest.mono fun n hn => le_of_bounds (ho (n + 1)) (ho n) (fun v hv => ?_) fun i j hij => ?_
  · rwa [hvars, ← hvars (n + 1)]
  · rw [hvars n] at hij
    refine Ceiling.le_trans (entry_close_le (ho (n + 1)) _ i j) ?_
    rw [hvars n, ← hvars (n + 1), entry_self (by rwa [hvars (n + 1)]), hn (i, j) hij]
    exact Ceiling.le_self _

lemma eventually_le {V : Set String} (hV : V.Finite) (hvars : ∀ n, ∀ v ∈ (o n).vars, v ∈ V) :
    ∀ᶠ n in atTop, (o (n + 1)).le (o n) := by
  have hgrow : ∀ n, ∀ v ∈ (o n).vars, v ∈ (o (n + 1)).vars := fun n v hv => by
    rw [h n, vars_widen (ho n) (hp n)]
    exact mem_union.2 (.inl hv)
  obtain ⟨N, hN⟩ := eventually_atTop.1
    (Chain.eventually_subset hV (x := fun n => {v | v ∈ (o n).vars}) hvars hgrow)
  have hconst : ∀ n, (o (N + n)).vars = (o N).vars := by
    intro n
    induction n with
    | zero => rfl
    | succ n ih =>
      refine .trans (ext_mem fun v => ⟨fun hv => ?_, hgrow (N + n) v⟩) ih
      exact hN (N + n) (Nat.le_add_right N n) hv
  exact Chain.eventually_of_tail N (eventually_le_of_vars (fun n => ho (N + n))
    (fun n => hp (N + n)) (fun n => h (N + n)) hconst)

end Octagon

namespace Affine

variable {x y : String → Rat}

def leftSides (a : Affine) : (String → Rat) →ₗ[Rat] (Fin a.rows.length → Rat) where
  toFun x k := (a.rows.get k).product a.arity (columns a.vars x)
  map_add' x y := funext fun k => Row.product_add _ (columns a.vars x) (columns a.vars y)
  map_smul' q x := funext fun k => by
    simp only [Row.product, columns, Pi.smul_apply, smul_eq_mul, RingHom.id_apply, Finset.mul_sum]
    exact Finset.sum_congr rfl fun c _ => by ring

/-- The directions in which solutions may move. -/
def directions (a : Affine) : Submodule Rat (String → Rat) := LinearMap.ker a.leftSides

lemma mem_directions {a : Affine} :
    x ∈ a.directions ↔ ∀ r ∈ a.rows, r.product a.arity (columns a.vars x) = 0 := by
  rw [directions, LinearMap.mem_ker, funext_iff, List.forall_mem_iff_get]
  rfl

lemma solves_iff_sub_mem {a : Affine} (hy : a.Solves y) : a.Solves x ↔ x - y ∈ a.directions := by
  rw [mem_directions]
  refine forall₂_congr fun r hr => ?_
  have hsub : r.product a.arity (columns a.vars (x - y)) =
      r.product a.arity (columns a.vars x) - r.product a.arity (columns a.vars y) :=
    Row.product_sub r (columns a.vars x) (columns a.vars y)
  rw [hsub, hy r hr, sub_eq_zero]
  rfl

lemma directions_mono {a b : Affine} (ha : a.IsReduced) (h : ∀ x, a.Solves x → b.Solves x) :
    a.directions ≤ b.directions := by
  intro x hx
  obtain ⟨y, hy⟩ := ha.exists_solves
  have hxy : a.Solves (y + x) := (solves_iff_sub_mem hy).2 (by rwa [add_sub_cancel_left])
  have := (solves_iff_sub_mem (h y hy)).1 (h _ hxy)
  rwa [add_sub_cancel_left] at this

lemma eventually_subspace_eq {k : ℕ} {M : Type} [AddCommGroup M] [Module Rat M]
    (f : M →ₗ[Rat] (Fin k → Rat)) {d : ℕ → Submodule Rat M} (hker : LinearMap.ker f ≤ d 0)
    (hd : Monotone d) : ∀ᶠ n in atTop, d (n + 1) = d n := by
  have hnoetherian : IsNoetherian Rat (Fin k → Rat) := inferInstance
  obtain ⟨N, hN⟩ := monotone_stabilizes_iff_noetherian.2 hnoetherian
    ⟨fun n => (d n).map f, fun n m hnm => Submodule.map_mono (hd hnm)⟩
  have hcomap : ∀ n, ((d n).map f).comap f = d n := fun n => by
    rw [Submodule.comap_map_eq, sup_eq_left]
    exact hker.trans (hd (Nat.zero_le n))
  refine eventually_atTop.2 ⟨N, fun n hn => ?_⟩
  have heq : (d (n + 1)).map f = (d n).map f := (hN (n + 1) (by omega)).symm.trans (hN n hn)
  rw [← hcomap (n + 1), heq, hcomap n]

lemma eventually_le {a b : ℕ → Affine} (ha : ∀ n, (a n).Solvable) (hb : ∀ n, (b n).Solvable)
    (h : ∀ n, a (n + 1) = (a n).widen (b n)) : ∀ᶠ n in atTop, (a (n + 1)).le (a n) := by
  have hgrow : ∀ n x, (a n).Solves x → (a (n + 1)).Solves x := fun n x hx => by
    rw [h n]
    exact hx.join_left (ha n) (hb n)
  have hmono : Monotone fun n => (a n).directions :=
    monotone_nat_of_le_succ fun n => directions_mono (ha n).1 (hgrow n)
  refine (eventually_subspace_eq (a 0).leftSides le_rfl hmono).mono fun n hn => ?_
  refine (le_iff_solves (ha (n + 1)) (ha n)).2 fun x hx => ?_
  obtain ⟨y, hy⟩ := (ha n).1.exists_solves
  exact (solves_iff_sub_mem hy).2 (hn ▸ (solves_iff_sub_mem (hgrow n y hy)).1 hx)

end Affine

namespace Relation

variable {r s : Relation}

lemma Proper.kind_widen (hr : r.Proper) (h : SameKind r s) : (r.widen s).kind = r.kind := by
  rw [hr.widen_eq]
  cases h <;> rfl

lemma exists_boxes (h : r.kind = .boxes) : ∃ b, r = .boxes b := by
  cases r <;> cases h
  exact ⟨_, rfl⟩

lemma exists_octagon (h : r.kind = .octagon) : ∃ o, r = .octagon o := by
  cases r <;> cases h
  exact ⟨_, rfl⟩

lemma exists_polyhedra (h : r.kind = .polyhedra) : ∃ o a, r = .polyhedra o a := by
  cases r <;> cases h
  exact ⟨_, _, rfl⟩

section Vars

variable {v : String} (hr : r.Proper) (hs : s.Proper) (h : SameKind r s)
include hr hs h

lemma Proper.mem_vars_combine {f : Interval → Interval → Interval} {g : Octagon → Octagon → Octagon}
    (hf : ∀ i j, i.isEmpty = false → (f i j).isEmpty = false)
    (hg : ∀ o p : Octagon, o.Satisfiable → p.Satisfiable → (g o p).vars = o.vars.union p.vars)
    (hv : v ∈ (combine f g Affine.join r s).vars) : v ∈ r.vars ∨ v ∈ s.vars := by
  cases h with
  | none => exact .inl hv
  | boxes b c =>
    exact Boxes.mem_keys_combine hr hs hf hv
  | octagon o p => exact mem_union.1 (hg o p hr hs ▸ hv)
  | polyhedra o p a b =>
    have hv : v ∈ (g o p).vars.union (a.join b).vars := hv
    rw [hg o p hr.1 hs.1, Affine.vars_join hr.2 hs.2] at hv
    change v ∈ o.vars.union a.vars ∨ v ∈ p.vars.union b.vars
    simp only [mem_union] at hv ⊢
    tauto

lemma Proper.mem_vars_join (hv : v ∈ (r.join s).vars) : v ∈ r.vars ∨ v ∈ s.vars :=
  hr.mem_vars_combine hs h (fun _ _ => isEmpty_join_left)
    (fun _ _ => Octagon.vars_join) (hr.join_eq hs ▸ hv)

lemma Proper.mem_vars_widen (hv : v ∈ (r.widen s).vars) : v ∈ r.vars ∨ v ∈ s.vars :=
  hr.mem_vars_combine hs h (fun _ _ => isEmpty_widen_left)
    (fun _ _ => Octagon.vars_widen) (hr.widen_eq ▸ hv)

end Vars

lemma eventually_le {r s : ℕ → Relation} (hr : ∀ n, (r n).Proper) (hs : ∀ n, (s n).Proper)
    (hkind : ∀ n, SameKind (r n) (s n)) (h : ∀ n, r (n + 1) = (r n).widen (s n)) {V : Set String}
    (hV : V.Finite) (hvars : ∀ n, ∀ v ∈ (r n).vars, v ∈ V) :
    ∀ᶠ n in atTop, (r (n + 1)).le (r n) := by
  have hkr : ∀ n, (r n).kind = (r 0).kind := by
    intro n
    induction n with
    | zero => rfl
    | succ n ih => rw [h n, (hr n).kind_widen (hkind n), ih]
  have hks : ∀ n, (s n).kind = (r 0).kind := fun n => (sameKind_iff.1 (hkind n)).symm.trans (hkr n)
  have hstep : ∀ n, r (n + 1) = combine Interval.widen Octagon.widen Affine.widen (r n) (s n) :=
    fun n => (h n).trans (hr n).widen_eq
  cases hzero : (r 0).kind with
  | none =>
    have hnone : ∀ n, r n = .none := fun n => by
      have := (hkr n).trans hzero
      cases hn : r n <;> simp_all [kind]
    exact .of_forall fun n => by rw [hnone, hnone]; rfl
  | boxes =>
    choose b hb using fun n => exists_boxes ((hkr n).trans hzero)
    choose c hc using fun n => exists_boxes ((hks n).trans hzero)
    simp only [hb, hc] at hr hs hstep ⊢
    exact (Boxes.eventually_le hr hs fun n => Relation.boxes.inj (hstep n)).mono fun n hn =>
      (PartsLe.boxes hn).le
  | octagon =>
    choose o ho using fun n => exists_octagon ((hkr n).trans hzero)
    choose p hp using fun n => exists_octagon ((hks n).trans hzero)
    simp only [ho, hp] at hr hs hstep hvars ⊢
    exact (Octagon.eventually_le hr hs (fun n => Relation.octagon.inj (hstep n)) hV hvars).mono
      fun n hn => (PartsLe.octagon hn).le
  | polyhedra =>
    choose o a hoa using fun n => exists_polyhedra ((hkr n).trans hzero)
    choose p b hpb using fun n => exists_polyhedra ((hks n).trans hzero)
    simp only [hoa, hpb] at hr hs hstep hvars ⊢
    have hparts := fun n => Relation.polyhedra.inj (hstep n)
    have hoctagon := Octagon.eventually_le (fun n => (hr n).1) (fun n => (hs n).1)
      (fun n => (hparts n).1) hV fun n v hv => hvars n v (mem_union.2 (.inl hv))
    have haffine := Affine.eventually_le (fun n => (hr n).2) (fun n => (hs n).2) fun n =>
      (hparts n).2
    filter_upwards [hoctagon, haffine] with n ho ha
    exact (PartsLe.polyhedra ho ha).le

end Relation
end StaticAnalysis
