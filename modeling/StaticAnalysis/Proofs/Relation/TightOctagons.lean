import Mathlib.Order.Bounds.Basic
import StaticAnalysis.Proofs.Relation.IntegerPoints
import StaticAnalysis.Proofs.Relation.Valuations

/-!
# Closed octagons

An octagon is closed if each of its bounds is the greatest value that the difference has in the
valuations it describes, and is missing only if there is no such value (`Closed`).  That is the same
as a tight matrix, as tight matrices have enough integer points.

Closing a coherent octagon makes it closed or finds that it describes nothing, provided that no sum
is left out.  The rest follows from what closed octagons say about valuations: closing is idempotent
and monotone, joins of closed octagons are closed, and comparison of bounds is inclusion.
-/

namespace StaticAnalysis

open Ceiling List Dbm

namespace Ceiling

variable {c d : Ceiling} {D : Set Int} {x y : Int}

/-- The bound is the greatest element of a set, or there is none as the set has no upper bound. -/
structure Sharp (c : Ceiling) (D : Set Int) : Prop where
  greatest : ∀ a, c = some a → IsGreatest D a
  unbounded : c = none → ¬ BddAbove D

lemma Admits.anti (h : c.Admits x) (hyx : y ≤ x) : c.Admits y := fun a ha => hyx.trans (h a ha)

lemma sharp_iff : c.Sharp D ↔ ∀ x, c.Admits x ↔ ∃ e ∈ D, x ≤ e := by
  constructor
  · intro h x
    cases c with
    | none =>
      obtain ⟨e, he, hxe⟩ := not_bddAbove_iff.1 (h.unbounded rfl) x
      exact iff_of_true (admits_none x) ⟨e, he, hxe.le⟩
    | some a =>
      obtain ⟨hmem, hupper⟩ := h.greatest a rfl
      rw [admits_some]
      exact ⟨fun hx => ⟨a, hmem, hx⟩, fun ⟨e, he, hxe⟩ => hxe.trans (hupper he)⟩
  · intro h
    constructor
    · rintro a rfl
      have hupper : ∀ e ∈ D, e ≤ a := fun e he => admits_some.1 ((h e).2 ⟨e, he, le_rfl⟩)
      obtain ⟨e, he, hae⟩ := (h a).1 (admits_some.2 le_rfl)
      have : e = a := le_antisymm (hupper e he) hae
      exact ⟨this ▸ he, hupper⟩
    · rintro rfl
      rw [not_bddAbove_iff]
      intro x
      obtain ⟨e, he, hxe⟩ := (h (x + 1)).1 (admits_none _)
      exact ⟨e, he, by omega⟩

lemma Sharp.le_of_forall (h : c.Sharp D) (hx : ∀ e ∈ D, e ≤ x) : c.le (some x) := by
  cases c with
  | none => exact absurd ⟨x, hx⟩ (h.unbounded rfl)
  | some a => exact some_le_some.2 (hx a (h.greatest a rfl).1)

lemma Sharp.eq_some_iff (h : c.Sharp D) : c = some x ↔ IsGreatest D x := by
  refine ⟨h.greatest x, fun hx => ?_⟩
  cases c with
  | none => exact absurd hx.bddAbove (h.unbounded rfl)
  | some a => rw [(h.greatest a rfl).unique hx]

lemma Sharp.eq_none_iff (h : c.Sharp D) : c = none ↔ ¬ BddAbove D := by
  refine ⟨h.unbounded, fun hD => ?_⟩
  cases c with
  | none => rfl
  | some a => exact absurd (h.greatest a rfl).bddAbove hD

lemma admits_max_iff : (c.max d).Admits x ↔ c.Admits x ∨ d.Admits x := by
  refine ⟨?_, admits_max⟩
  cases c with
  | none => exact fun _ => .inl (admits_none x)
  | some a =>
    cases d with
    | none => exact fun _ => .inr (admits_none x)
    | some b =>
      simp only [max, admits_some]
      split <;> omega

lemma min_min_self (c d : Ceiling) : (c.min d).min d = c.min d :=
  eq_of_le_some_iff fun x => by rw [min_le_some_iff, min_le_some_iff, or_assoc, or_self]

end Ceiling

/-! ## Coherent matrices -/

namespace Dbm

variable {n p q i j : Nat} {m : Dbm}

lemma bound_set (hm : Square n m) (hp : p < n) (hq : q < n) (c : Ceiling) :
    (m.set p q c).bound i j = if i = p ∧ j = q then c else m.bound i j := by
  have hdim : m.rows.size = n := hm.dim
  have hsize := hm.size p hp
  by_cases hi : i = p
  · subst hi
    have hrow : (m.set i q c).row i = (m.row i).setIfInBounds q c := by
      simp [set, row, hdim, hp]
    unfold bound
    rw [hrow]
    by_cases hj : j = q
    · subst hj
      simp [hsize, hq]
    · simp [hj, Ne.symm hj]
  · have hrow : (m.set p q c).row i = m.row i := by
      simp [set, row, Ne.symm hi]
    unfold bound
    rw [hrow, if_neg fun h => hi h.1]

lemma Coherent.twin_lt (hm : Coherent n m) (hi : i < n) : twin i < n :=
  ((hm.within (within_of_bound (hm.diagonal i hi))).lt hm.square).1

lemma bound_constrain (hm : Coherent n m) (hp : p < n) (hq : q < n) (c : Int) :
    (m.constrain p q c).bound i j = if (i = p ∧ j = q) ∨ (i = twin q ∧ j = twin p) then
      (m.bound i j).min (some c) else m.bound i j := by
  have hfirst := fun i j => bound_set (i := i) (j := j) hm.square hp hq ((m.bound p q).min (some c))
  unfold constrain
  dsimp only
  rw [bound_set (square_set hm.square p q _) (hm.twin_lt hq) (hm.twin_lt hp), hfirst, hfirst]
  by_cases hback : i = twin q ∧ j = twin p
  · rw [if_pos hback, if_pos (Or.inr hback), hback.1, hback.2]
    by_cases hsame : twin q = p ∧ twin p = q
    · rw [if_pos hsame, hsame.1, hsame.2, min_min_self]
    · rw [if_neg hsame]
  · rw [if_neg hback]
    by_cases hsame : i = p ∧ j = q
    · rw [if_pos hsame, if_pos (Or.inl hsame), hsame.1, hsame.2]
    · rw [if_neg hsame, if_neg (not_or.2 ⟨hsame, hback⟩)]

lemma twin_eq_iff : twin i = j ↔ i = twin j :=
  ⟨fun h => by rw [← h, twin_twin], fun h => by rw [h, twin_twin]⟩

lemma Coherent.constrain (hm : Coherent n m) (hp : p < n) (hq : q < n) (hpq : p ≠ q) (c : Int) :
    Coherent n (m.constrain p q c) := by
  refine ⟨square_constrain hm.square p q c, fun i hi => ?_, fun i j => ?_⟩
  · rw [bound_constrain hm hp hq, if_neg, hm.diagonal i hi]
    rintro (⟨rfl, h⟩ | ⟨h₁, h₂⟩)
    · exact hpq h
    · rw [h₁, twin_eq_iff, twin_twin] at h₂
      exact hpq h₂.symm
  · rw [bound_constrain hm hp hq, bound_constrain hm hp hq, hm.mirrored]
    refine if_congr ?_ rfl rfl
    rw [twin_eq_iff, twin_eq_iff, twin_eq_iff, twin_eq_iff, twin_twin, twin_twin, or_comm, and_comm,
      and_comm (a := j = twin p)]

lemma coherent_unconstrained (s : Nat) : Coherent (2 * s) (unconstrained (2 * s)) := by
  have hbound : ∀ i j, (unconstrained (2 * s)).bound i j = _ := bound_ofFn _ (2 * s)
  refine ⟨square_ofFn _ _, fun i hi => ?_, fun i j => ?_⟩
  · rw [hbound, if_pos ⟨hi, hi⟩, if_pos rfl]
  · rw [hbound, hbound]
    refine if_congr ?_ (if_congr ?_ rfl rfl) rfl
    · unfold twin
      split <;> split <;> omega
    · rw [twin_eq_iff, twin_twin, eq_comm]

end Dbm

namespace Octagon

open Dbm (twin)

variable {o p : Octagon} {vars : SortedSet String} {x : String → Int} {i j k : Nat} {c : Int}

/-- The values of `V j - V i` in the valuations that an octagon describes. -/
def differences (o : Octagon) (vars : SortedSet String) (i j : Nat) : Set Int :=
  {d | ∃ x, o.Describes x ∧ quantity vars x j - quantity vars x i = d}

structure Closed (o : Octagon) : Prop where
  square : o.Square
  feasible : o.infeasible = false
  sharp : ∀ i j, i < 2 * o.vars.size → j < 2 * o.vars.size →
    (o.bound i j).Sharp (o.differences o.vars i j)

/-- The matrix is coherent, as it is for octagons made of constraints (`Dbm.Coherent.constrain`). -/
def Coherent (o : Octagon) : Prop := Dbm.Coherent (2 * o.vars.size) o.matrix

/-! ## Tight matrices -/

/-- The valuation that gives variable number `k` the value `v k`. -/
def named (vars : SortedSet String) (v : Nat → Int) (name : String) : Int :=
  ((vars.toList.idxOf? name).map v).getD 0

lemma quantity_named (v : Nat → Int) (hi : i < 2 * vars.size) :
    quantity vars (named vars v) i = Dbm.signed v i := by
  have hlt := div_two_lt_length hi
  unfold quantity Dbm.signed
  rw [getElem?_eq_getElem hlt]
  simp [named, vars.idxOf?_getElem hlt]

lemma Describes.of_signed {v : Nat → Int} (ho : o.Square) (hf : o.infeasible = false)
    (hv : o.matrix.Holds (Dbm.signed v)) : o.Describes (named o.vars v) := by
  refine ⟨hf, holds_of_within fun i j c hc => ?_⟩
  obtain ⟨hi, hj⟩ := hc.lt ho
  rw [quantity_named v hi, quantity_named v hj]
  exact hv.sub_le hc

lemma closed_of_tight (ht : Dbm.Tight (2 * o.vars.size) o.matrix) (hf : o.infeasible = false) :
    o.Closed := by
  refine ⟨ht.square, hf, fun i j hi hj => sharp_iff.2 fun d => ⟨fun hd => ?_, ?_⟩⟩
  · obtain ⟨v, hv, hle⟩ := ht.exists_point hi hd
    refine ⟨_, ⟨named o.vars v, .of_signed ht.square hf hv, rfl⟩, ?_⟩
    rw [quantity_named v hi, quantity_named v hj]
    exact hle
  · rintro ⟨e, ⟨x, hx, rfl⟩, hle⟩
    exact Ceiling.Admits.anti (hx.2 i j) hle

lemma Closed.within_iff (ho : o.Closed) : o.matrix.Within i j c ↔
    (i < 2 * o.vars.size ∧ j < 2 * o.vars.size) ∧
      ∀ x, o.Describes x → quantity o.vars x j - quantity o.vars x i ≤ c := by
  constructor
  · exact fun h => ⟨h.lt ho.square, fun x hx => hx.2.sub_le h⟩
  · rintro ⟨⟨hi, hj⟩, h⟩
    refine (ho.sharp i j hi hj).le_of_forall ?_
    rintro e ⟨x, hx, rfl⟩
    exact h x hx

lemma Closed.tight (ho : o.Closed) : Dbm.Tight (2 * o.vars.size) o.matrix := by
  have htwin : ∀ {i}, i < 2 * o.vars.size → twin i < 2 * o.vars.size := by
    intro i hi
    unfold twin
    split <;> omega
  refine ⟨.of_within ho.square (fun i hi => ?_) fun i j c h => ?_, fun hx hy => ?_, fun hx hy => ?_⟩
  · have hsharp := ho.sharp i i hi hi
    have hle := hsharp.le_of_forall (x := 0) (by
      rintro e ⟨x, -, rfl⟩
      omega)
    obtain ⟨a, ha, -⟩ := le_some_iff.1 hle
    obtain ⟨x, -, hx⟩ := (hsharp.greatest a ha).1
    rw [show a = 0 by omega] at ha
    exact ha
  · rw [ho.within_iff] at h ⊢
    refine ⟨⟨htwin h.1.2, htwin h.1.1⟩, fun x hx => ?_⟩
    have := h.2 x hx
    rw [quantity_twin, quantity_twin]
    omega
  · rw [ho.within_iff] at hx hy ⊢
    refine ⟨⟨hx.1.1, hy.1.2⟩, fun v hv => ?_⟩
    have := hx.2 v hv
    have := hy.2 v hv
    omega
  · rw [ho.within_iff] at hx hy ⊢
    refine ⟨⟨hx.1.1, hy.1.2⟩, fun v hv => ?_⟩
    have hi := hx.2 v hv
    have hj := hy.2 v hv
    rw [quantity_twin] at hi hj
    omega

lemma Closed.exists_describes (ho : o.Closed) : ∃ x, o.Describes x := by
  obtain ⟨v, hv, -⟩ := ho.tight.exists_completion (holdsOn_empty o.matrix 0)
  exact ⟨_, .of_signed ho.square ho.feasible hv⟩

/-! ## Closing -/

lemma close_of_feasible (h : o.close.infeasible = false) :
    o.matrix.paths.contradiction? = none ∧
      o.close = { o with matrix := o.matrix.paths.clearDiagonal o.matrix.paths.dim } := by
  have hf := infeasible_of_close h
  unfold close at h ⊢
  rw [if_neg (by simp [hf])] at h ⊢
  dsimp only at h ⊢
  split at h
  · cases h
  next hc => exact ⟨hc, rfl⟩

lemma Closed.close_eq (ho : o.Closed) : o.close = o := by
  have ht := ho.tight
  have hpaths : o.matrix.shortestPaths.tighten.strengthen = o.matrix := by
    rw [ht.shortestPaths_eq, ht.tighten_eq, ht.strengthen_eq]
  unfold Octagon.close
  rw [if_neg (by simp [ho.feasible])]
  dsimp only
  rw [hpaths, ht.contradiction?_eq, clearDiagonal_of_diagonal ht.square ht.diagonal]

lemma closed_close (ho : o.Coherent) (hfits : o.matrix.sumsFit)
    (hf : o.close.infeasible = false) : o.close.Closed := by
  obtain ⟨hc, hclose⟩ := close_of_feasible hf
  have ht := Dbm.Coherent.tight_paths ho hfits hc
  refine closed_of_tight ?_ hf
  rw [hclose]
  dsimp only
  rw [clearDiagonal_of_diagonal ht.square ht.diagonal]
  exact ht

lemma differences_close (ho : o.Square) (vars : SortedSet String) (i j : Nat) :
    o.close.differences vars i j = o.differences vars i j :=
  Set.ext fun _ => exists_congr fun _ => and_congr_left' (describes_close_iff ho)

lemma Describes.mono (hvars : p.vars = o.vars) (hf : p.infeasible → o.infeasible)
    (h : ∀ i j, (o.bound i j).le (p.bound i j)) (hx : o.Describes x) : p.Describes x := by
  refine ⟨?_, fun i j => ?_⟩
  · by_contra hp
    have := hf (by simpa using hp)
    rw [hx.1] at this
    cases this
  · rw [hvars]
    exact (hx.2 i j).mono (h i j)

lemma close_mono (ho : o.close.Closed) (hos : o.Square) (hp : p.Square) (hvars : o.vars = p.vars)
    (hsub : ∀ x, o.Describes x → p.Describes x) :
    p.close.infeasible = false ∧ ∀ i j, (o.close.bound i j).le (p.close.bound i j) := by
  obtain ⟨x, hx⟩ := ho.exists_describes
  have hpx := (describes_close_iff hp).2 (hsub x ((describes_close_iff hos).1 hx))
  refine ⟨hpx.1, fun i j => ?_⟩
  cases hb : p.close.bound i j with
  | none => exact le_none _
  | some c =>
    refine ho.within_iff.2 ⟨?_, fun x hx => ?_⟩
    · rw [vars_close, hvars, ← vars_close p]
      exact Dbm.Square.lt_of_bound hp.close hb
    · have hpx := (describes_close_iff hp).2 (hsub x ((describes_close_iff hos).1 hx))
      rw [vars_close, hvars, ← vars_close p]
      exact hpx.2 i j c hb

/-! ## More variables -/

lemma place_lt (h : o.place vars i = some j) (hi : i < 2 * vars.size) : j < 2 * o.vars.size := by
  have hlt := div_two_lt_length hi
  obtain ⟨hget, -⟩ := place_spec h
  rw [getElem?_eq_getElem hlt] at hget
  obtain ⟨hlt', -⟩ := List.getElem?_eq_some_iff.1 hget
  have : o.vars.size = o.vars.toList.length := rfl
  omega

lemma place_eq_none_congr (h : i / 2 = j / 2) : o.place vars i = none ↔ o.place vars j = none := by
  unfold place
  rw [h, Option.map_eq_none_iff, Option.map_eq_none_iff]

lemma exists_name_of_place_eq_none (hk : k < 2 * vars.size) (h : o.place vars k = none) :
    ∃ name, vars.toList[k / 2]? = some name ∧ name ∉ o.vars := by
  have hlt := div_two_lt_length hk
  refine ⟨vars.toList[k / 2], getElem?_eq_getElem hlt, fun hmem => ?_⟩
  obtain ⟨l, hl, hget⟩ := mem_iff_getElem.1 hmem
  have hindex : o.index? vars.toList[k / 2] = some l := hget ▸ o.vars.idxOf?_getElem hl
  unfold place at h
  rw [getElem?_map, getElem?_eq_getElem hlt] at h
  simp [hindex] at h

lemma quantity_update {name : String} {t : Int} (h : vars.toList[i / 2]? ≠ some name) :
    quantity vars (Function.update x name t) i = quantity vars x i := by
  unfold quantity
  cases hget : vars.toList[i / 2]? with
  | none => rfl
  | some v =>
    have hne : v ≠ name := fun hv => h (hv ▸ hget)
    simp [Function.update_of_ne hne]

lemma Describes.exists_free (hx : o.Describes x) (hk : k < 2 * vars.size)
    (hplace : o.place vars k = none) (q : Int) :
    ∃ y, o.Describes y ∧ quantity vars y k = q ∧
      ∀ i, i / 2 ≠ k / 2 → quantity vars y i = quantity vars x i := by
  obtain ⟨name, hname, hfree⟩ := exists_name_of_place_eq_none hk hplace
  refine ⟨Function.update x name (if k % 2 = 0 then q else -q), ⟨hx.1, ?_⟩, ?_, fun i hi => ?_⟩
  · intro i j
    have hne : ∀ i : Nat, o.vars.toList[i / 2]? ≠ some name :=
      fun i h => hfree (mem_of_getElem? h)
    rw [quantity_update (hne i), quantity_update (hne j)]
    exact hx.2 i j
  · unfold quantity
    rw [hname]
    by_cases hk : k % 2 = 0
    · simp [hk]
    · simp [hk]
  · refine quantity_update fun h => hi ?_
    obtain ⟨hlt, hget⟩ := List.getElem?_eq_some_iff.1 h
    obtain ⟨hlt', hget'⟩ := List.getElem?_eq_some_iff.1 hname
    exact (vars.nodup.getElem_inj_iff).1 (hget.trans hget'.symm)

lemma Describes.exists_surpass (hx : o.Describes x) (hi : i < 2 * vars.size) (hj : j < 2 * vars.size)
    (hij : i ≠ j) (hplace : o.place vars i = none ∨ o.place vars j = none) (d : Int) :
    ∃ y, o.Describes y ∧ d ≤ quantity vars y j - quantity vars y i := by
  by_cases hvar : i / 2 = j / 2
  · -- The difference is twice the value of `j`.
    obtain rfl : i = twin j := (eq_or_eq_twin hvar).resolve_left hij
    rw [place_eq_none_congr hvar, or_self] at hplace
    obtain ⟨y, hy, hyj, -⟩ := hx.exists_free hj hplace d.natAbs
    have := quantity_twin vars y j
    exact ⟨y, hy, by omega⟩
  · rcases hplace with hplace | hplace
    · obtain ⟨y, hy, hyi, hrest⟩ := hx.exists_free hi hplace (quantity vars x j - d)
      have := hrest j (Ne.symm hvar)
      exact ⟨y, hy, by omega⟩
    · obtain ⟨y, hy, hyj, hrest⟩ := hx.exists_free hj hplace (quantity vars x i + d)
      have := hrest i hvar
      exact ⟨y, hy, by omega⟩

/-- The bounds of a closed octagon are sharp over more variables too. -/
lemma Closed.sharp_entry (ho : o.Closed) (hi : i < 2 * vars.size) (hj : j < 2 * vars.size) :
    (o.entry vars i j).Sharp (o.differences vars i j) := by
  refine sharp_iff.2 fun d => ⟨fun hd => ?_, ?_⟩
  · obtain ⟨x, hx⟩ := ho.exists_describes
    unfold entry at hd
    split at hd
    next i' j' hi' hj' =>
      obtain ⟨e, ⟨y, hy, rfl⟩, hle⟩ :=
        (sharp_iff.1 (ho.sharp i' j' (place_lt hi' hi) (place_lt hj' hj)) d).1 hd
      rw [quantity_place hi', quantity_place hj'] at hle
      exact ⟨_, ⟨y, hy, rfl⟩, hle⟩
    next hnone =>
      split at hd
      next hij =>
        subst hij
        have := admits_some.1 hd
        exact ⟨_, ⟨x, hx, rfl⟩, by omega⟩
      next hij =>
        have hplace : o.place vars i = none ∨ o.place vars j = none := by
          cases hi' : o.place vars i with
          | none => exact .inl rfl
          | some i' =>
            refine .inr (Option.eq_none_iff_forall_ne_some.2 fun j' hj' => hnone i' j' hi' hj')
        obtain ⟨y, hy, hle⟩ := hx.exists_surpass hi hj hij hplace d
        exact ⟨_, ⟨y, hy, rfl⟩, hle⟩
  · rintro ⟨e, ⟨x, hx, rfl⟩, hle⟩
    exact (admits_entry hx.2 vars i j).anti hle

lemma Closed.pointwise_max (ho : o.Closed) (hp : p.Closed) :
    (o.pointwise Ceiling.max p).Closed := by
  have hsquare : (o.pointwise Ceiling.max p).Square := square_pointwise ho.square hp.square
  refine ⟨hsquare, (infeasible_pointwise _ _ _).trans ho.feasible, fun i j hi hj => ?_⟩
  rw [vars_pointwise] at hi hj
  have hjoin : ∀ x, o.Describes x ∨ p.Describes x → (o.pointwise Ceiling.max p).Describes x := by
    intro x hx
    refine ⟨(infeasible_pointwise _ _ _).trans ho.feasible, ?_⟩
    rw [holds_pointwise_iff ho.square hp.square]
    intro i j _ _
    exact admits_max (hx.imp (fun h => admits_entry h.2 _ i j) fun h => admits_entry h.2 _ i j)
  refine sharp_iff.2 fun d => ⟨fun hd => ?_, ?_⟩
  · rw [bound_pointwise ho.square hp.square ⟨hi, hj⟩, admits_max_iff,
      sharp_iff.1 (ho.sharp_entry hi hj), sharp_iff.1 (hp.sharp_entry hi hj)] at hd
    rw [vars_pointwise]
    rcases hd with ⟨e, ⟨x, hx, rfl⟩, hle⟩ | ⟨e, ⟨x, hx, rfl⟩, hle⟩
    · exact ⟨_, ⟨x, hjoin x (.inl hx), rfl⟩, hle⟩
    · exact ⟨_, ⟨x, hjoin x (.inr hx), rfl⟩, hle⟩
  · rintro ⟨e, ⟨x, hx, rfl⟩, hle⟩
    exact Ceiling.Admits.anti (hx.2 i j) hle

lemma Closed.le_iff (ho : o.Closed) (hp : p.Square) :
    o.le p ↔ ∀ x, o.Describes x → p.Describes x := by
  refine ⟨fun h x => .of_le ho.square hp h, fun h => ?_⟩
  obtain ⟨x, hx⟩ := ho.exists_describes
  rw [le_iff_entries ho.square hp, ho.close_eq]
  refine .inr ⟨(h x hx).1, fun i j hi hj => ?_⟩
  cases hb : p.entry (o.vars.union p.vars) i j with
  | none => exact le_none _
  | some c =>
    refine (ho.sharp_entry hi hj).le_of_forall ?_
    rintro e ⟨y, hy, rfl⟩
    exact admits_entry (h y hy).2 _ i j c hb

/-! ## The tight closure -/

/-- Closing a coherent octagon, where all sums are words, marks it as infeasible exactly if it
describes nothing, and otherwise makes every bound the greatest value of its difference, if there is
one.  Hence closing is idempotent and monotone; the bound by bound maximum of closed octagons is
closed; and comparing closed octagons is comparing what they describe. -/
theorem close_tight (ho : o.Coherent) (hfits : o.matrix.sumsFit = true) :
    (o.close.infeasible = true ↔ ∀ x, ¬ o.Describes x) ∧
    (o.close.infeasible = false → ∀ i j, i < 2 * o.vars.size → j < 2 * o.vars.size →
      (∀ c, o.close.bound i j = some c ↔ IsGreatest (o.differences o.vars i j) c) ∧
      (o.close.bound i j = none ↔ ¬ BddAbove (o.differences o.vars i j))) ∧
    o.close.close = o.close ∧
    (∀ p : Octagon, p.Coherent → p.vars = o.vars →
      (p.infeasible = true → o.infeasible = true) →
      (∀ i j, (o.bound i j).le (p.bound i j) = true) →
      (p.close.infeasible = true → o.close.infeasible = true) ∧
      (o.close.infeasible = false → ∀ i j, (o.close.bound i j).le (p.close.bound i j) = true)) ∧
    (o.close.infeasible = false → o.close.Closed) ∧
    ∀ q r : Octagon, q.Closed → r.Closed →
      (q.pointwise Ceiling.max r).Closed ∧
      (q.pointwise Ceiling.max r).close = q.pointwise Ceiling.max r ∧
      (q.le r = true ↔ ∀ x, q.Describes x → r.Describes x) := by
  have hclosed : o.close.infeasible = false → o.close.Closed := closed_close ho hfits
  refine ⟨⟨fun hf x hx => ?_, fun h => ?_⟩, fun hf i j hi hj => ?_, ?_,
    fun p hp hvars hpf hle => ?_,
    hclosed, fun q r hq hr => ⟨hq.pointwise_max hr, (hq.pointwise_max hr).close_eq,
      hq.le_iff hr.square⟩⟩
  · rw [((describes_close_iff ho.square).2 hx).1] at hf
    cases hf
  · by_contra hf
    obtain ⟨x, hx⟩ := (hclosed (by simpa using hf)).exists_describes
    exact h x ((describes_close_iff ho.square).1 hx)
  · have hsharp := (hclosed hf).sharp i j (by rwa [vars_close]) (by rwa [vars_close])
    rw [vars_close, differences_close ho.square] at hsharp
    exact ⟨fun c => hsharp.eq_some_iff, hsharp.eq_none_iff⟩
  · cases hf : o.close.infeasible with
    | true => rw [Octagon.close, if_pos hf]
    | false => exact (hclosed hf).close_eq
  · have hmono : o.close.infeasible = false → p.close.infeasible = false ∧
        ∀ i j, (o.close.bound i j).le (p.close.bound i j) = true :=
      fun hf => close_mono (hclosed hf) ho.square hp.square hvars.symm fun x => .mono hvars hpf hle
    refine ⟨fun hf => ?_, fun hf => (hmono hf).2⟩
    by_contra hof
    rw [(hmono (by simpa using hof)).1] at hf
    cases hf

/-- Variables `a` and `b` with `a ≤ b` and `a + b ≤ 3`. -/
def belowThree : Octagon :=
  ((unconstrained (.ofList ["a", "b"])).constrain 2 0 0).constrain 3 0 3

/-- Variables `a` and `b` with `a = b` and `a + b = 1`, which only fractions satisfy. -/
def halfEach : Octagon :=
  ((((unconstrained (.ofList ["a", "b"])).constrain 2 0 0).constrain 0 2 0).constrain 3 0 1).constrain
    0 3 (-1)

/-- The greatest value of `2 * a` is even, `2 * b` is unbounded, and parity alone shows a
contradiction. -/
theorem close_tight_parity :
    IsGreatest (belowThree.differences belowThree.vars 1 0) 2 ∧
      ¬ BddAbove (belowThree.differences belowThree.vars 3 2) ∧ ∀ x, ¬ halfEach.Describes x := by
  have hbelow : belowThree.Coherent :=
    .constrain (.constrain (coherent_unconstrained 2) (by decide) (by decide) (by decide) 0)
      (by decide) (by decide) (by decide) 3
  have hhalf : halfEach.Coherent :=
    .constrain (.constrain (.constrain (.constrain (coherent_unconstrained 2)
      (by decide) (by decide) (by decide) 0) (by decide) (by decide) (by decide) 0)
      (by decide) (by decide) (by decide) 1) (by decide) (by decide) (by decide) (-1)
  obtain ⟨-, hsharp, -⟩ := close_tight hbelow (by decide +kernel)
  have hsharp := hsharp (by decide +kernel)
  exact ⟨((hsharp 1 0 (by decide) (by decide)).1 2).1 (by decide +kernel),
    (hsharp 3 2 (by decide) (by decide)).2.1 (by decide +kernel),
    (close_tight hhalf (by decide +kernel)).1.1 (by decide +kernel)⟩

end Octagon
end StaticAnalysis
