import Mathlib
import StaticAnalysis.Proofs.Relation.Chains

/-!
# Affine hulls

An element stands for the rational valuations that solve its equations, for none if it is
infeasible; variables that it does not track may have any value.  These valuations form an affine
subspace (`space`), with the directions in which solutions may move.  One element is below another
exactly if its valuations are among those of the other, and the join stands for the hull of both
sides: an equation that holds in the hull is a linear form that vanishes in the directions of either
side, so it mentions only their variables and is one that the join keeps.

All this is so of reduced equations, and every operation leaves reduced equations
(`Derived.isReduced`).

Each step of a sequence of joins that leaves the element below it adds a direction, or the first
valuation.  Over `n` variables there is room for `n` directions.
-/

namespace StaticAnalysis

open Finset Nat Row Submodule Set
open List hiding forall_mem_map product

/-! ## Columns -/

section Columns

variable {n k c : Nat} {r : Row} {rows reduced : List Row}

/-- The column that stands at place `c` once column `k` is gone. -/
def skip (k c : Nat) : Nat := if c < k then c else c + 1

lemma exists_skip (h : c ≠ k) : ∃ d, skip k d = c := by
  rcases Nat.lt_or_gt_of_ne h with hlt | hgt
  · exact ⟨c, if_pos hlt⟩
  · obtain ⟨d, rfl⟩ : ∃ d, c = d + 1 := ⟨c - 1, by omega⟩
    exact ⟨d, if_neg (by omega)⟩

lemma skip_lt_skip {d : Nat} : skip k c < skip k d ↔ c < d := by
  unfold skip
  split_ifs <;> omega

lemma entry_eraseIdx (r : Row) (k c : Nat) : Row.entry (r.eraseIdx k) c = r.entry (skip k c) := by
  unfold skip
  rw [entry, entry, List.getD, List.getD, getElem?_eraseIdx]
  split <;> rfl

lemma pivot?_eraseIdx (hk : k ≤ n) (hzero : r.entry k = 0) :
    Row.pivot? n (r.eraseIdx k) = some c ↔ r.pivot? (n + 1) = some (skip k c) := by
  have hbound : c < n ↔ skip k c < n + 1 := by
    unfold skip
    split <;> omega
  simp only [pivot?_eq_some, entry_eraseIdx, hbound]
  refine and_congr_right fun _ => and_congr_right fun _ =>
    ⟨fun h d hd => ?_, fun h d hd => h _ (skip_lt_skip.2 hd)⟩
  by_cases hdk : d = k
  · rw [hdk]
    exact hzero
  · obtain ⟨e, rfl⟩ := exists_skip hdk
    exact h e (skip_lt_skip.1 hd)

lemma Reduced.eraseIdx (hrows : Reduced (n + 1) rows) (hk : k ≤ n)
    (hzero : ∀ r ∈ rows, r.entry k = 0) : Reduced n (rows.map (·.eraseIdx k)) := by
  have hiff : ∀ r ∈ rows, ∀ c, _ := fun r hr c => pivot?_eraseIdx (c := c) hk (hzero r hr)
  have hpivot : ∀ r ∈ rows, ∃ c, Row.pivot? n (r.eraseIdx k) = some c ∧
      Row.entry (r.eraseIdx k) c = 1 := by
    intro r hr
    obtain ⟨d, hd, hone⟩ := hrows.pivot r hr
    obtain ⟨c, rfl⟩ := exists_skip (c := d) (k := k) (by rintro rfl; simp [hzero r hr] at hone)
    exact ⟨c, (hiff r hr c).2 hd, (entry_eraseIdx r k c).trans hone⟩
  refine ⟨?_, by simpa using hpivot, List.pairwise_map.2 ?_, ?_⟩
  · simp only [List.forall_mem_map]
    intro r hr
    have hlen := hrows.length r hr
    rw [length_eraseIdx_of_lt (by omega)]
    omega
  · refine hrows.distinct.imp_of_mem fun {r s} hr hs hne heq => hne ?_
    obtain ⟨c, hc, -⟩ := hpivot r hr
    rw [(hiff r hr c).1 hc, eq_comm, ← hiff s hs c, ← heq, hc]
  · simp only [List.forall_mem_map]
    intro r hr s hs c hc hne
    exact (entry_eraseIdx r k c).trans
      (hrows.clear r hr s hs _ ((hiff s hs c).1 hc) fun h => hne ((hiff r hr c).2 h))

lemma product_update (hk : k < n) (r : Row) (x : Nat → Rat) (t : Rat) :
    r.product n (Function.update x k t) = r.product n x + r.entry k * (t - x k) := by
  unfold product
  rw [← sub_eq_iff_eq_add', ← sum_sub_distrib, sum_eq_single_of_mem k (mem_range.2 hk)]
  · rw [Function.update_self, mul_sub]
  · exact fun c _ hc => by rw [Function.update_of_ne hc, sub_self]

/-- Equations that do not mention an unknown do not restrict it, so it is in none of the reduced
ones. -/
lemma entry_of_rowReduce (hrows : ∀ r ∈ rows, r.length = n + 1)
    (h : rowReduce rows n = some reduced)
    (hk : k < n) (hzero : ∀ r ∈ rows, r.entry k = 0) : ∀ r ∈ reduced, r.entry k = 0 := by
  intro r hr
  obtain ⟨hreduced, hsame⟩ := rowReduce_eq_some hrows h
  obtain ⟨x, hx⟩ : ∃ x, ∀ r ∈ reduced, r.Holds n x := ⟨_, hreduced.toReduced.holds_point⟩
  have hmoved : ∀ r ∈ reduced, r.Holds n
    (Function.update x k (x k + 1)) := (hsame _).2 fun s hs => by
    rw [Holds, product_update hk, hzero s hs, zero_mul, add_zero]
    exact (hsame x).1 hx s hs
  have hholds := hmoved r hr
  rw [Holds, product_update hk, hx r hr] at hholds
  simpa using hholds

end Columns

namespace Affine

open Module

variable {a b : Affine} {x y d : String → Rat} {rows : List Row} {k : Nat}

/-! ## Valuations -/

/-- The rational valuations that an element stands for. -/
def valuations (a : Affine) : Set (String → Rat) := {x | a.infeasible = false ∧ a.Solves x}

lemma valuations_of_infeasible (h : a.infeasible = true) : a.valuations = ∅ :=
  eq_empty_of_forall_notMem fun x hx => by simp [hx.1] at h

lemma valuations_of_feasible (h : ¬ a.infeasible = true) : a.valuations = {x | a.Solves x} :=
  ext fun _ => and_iff_right (by simpa using h)

section

variable (ha : a.IsReduced)
include ha

lemma IsReduced.infeasible_iff : a.infeasible = true ↔ a.valuations = ∅ := by
  refine ⟨valuations_of_infeasible, fun hempty => ?_⟩
  obtain ⟨x, hx⟩ := ha.exists_solves
  by_contra hf
  exact notMem_empty x (hempty ▸ valuations_of_feasible hf ▸ hx)

lemma IsReduced.solvable (h : ¬ a.infeasible = true) : a.Solvable := ⟨ha, by simpa using h⟩

lemma le_iff (hb : b.IsReduced) : a.le b = true ↔ a.valuations ⊆ b.valuations := by
  by_cases haf : a.infeasible = true
  · simp [le, haf, valuations_of_infeasible haf]
  by_cases hbf : b.infeasible = true
  · rw [valuations_of_infeasible hbf, subset_empty_iff, ← ha.infeasible_iff]
    simp [le, haf, hbf]
  · rw [le_iff_solves (ha.solvable haf) (hb.solvable hbf), valuations_of_feasible haf,
      valuations_of_feasible hbf]
    rfl

lemma addRows_spec (hlen : ∀ r ∈ rows, r.length = a.arity + 1) :
    (a.addRows rows).IsReduced ∧ (a.addRows rows).valuations =
      a.valuations ∩ {x | ∀ r ∈ rows, r.Holds a.arity (columns a.vars x)} := by
  have hall : ∀ r ∈ a.rows ++ rows, r.length = a.arity + 1 :=
    List.forall_mem_append.2 ⟨ha.length, hlen⟩
  unfold addRows
  split
  next hf => exact ⟨ha, by rw [valuations_of_infeasible hf, empty_inter]⟩
  next hf =>
    rw [valuations_of_feasible hf]
    split
    next reduced h =>
      obtain ⟨hreduced, hsame⟩ := rowReduce_eq_some hall h
      refine ⟨hreduced.toReduced, (valuations_of_feasible (a := ⟨_, reduced, _⟩) hf).trans
        (ext fun x => ?_)⟩
      exact (hsame (columns a.vars x)).trans forall_mem_append
    next h =>
      refine ⟨(echelon_nil 0).toReduced, (valuations_of_infeasible rfl).trans (Eq.symm ?_)⟩
      refine eq_empty_of_forall_notMem fun x hx => ?_
      exact not_holds_of_rowReduce_eq_none hall h (columns a.vars x) (List.forall_mem_append.2 hx)

lemma meet_spec (hb : b.IsReduced) :
    (a.meet b).IsReduced ∧ (a.meet b).valuations = a.valuations ∩ b.valuations := by
  unfold meet
  split
  next hf =>
    refine ⟨(echelon_nil 0).toReduced, (valuations_of_infeasible rfl).trans ?_⟩
    rcases (Bool.or_eq_true _ _).mp hf with hf | hf
    · rw [valuations_of_infeasible hf, empty_inter]
    · rw [valuations_of_infeasible hf, inter_empty]
  next hf =>
    have hal := aligned_align ha hb
    have hvars : (a.align b).1.vars = (a.align b).2.vars := hal.vars_left.trans hal.vars_right.symm
    have harity : (a.align b).1.arity = (a.align b).2.arity := congrArg SortedSet.size hvars
    have hfeasible : (a.align b).1.infeasible = a.infeasible := by
      unfold align
      split <;> rfl
    simp only [Bool.or_eq_true, not_or] at hf
    obtain ⟨hreduced, hvaluations⟩ := addRows_spec hal.reduced_left
      (harity ▸ hal.reduced_right.length)
    refine ⟨hreduced, hvaluations.trans (ext fun x => ?_)⟩
    rw [valuations_of_feasible (hfeasible ▸ hf.1), valuations_of_feasible hf.1,
      valuations_of_feasible hf.2, harity, hvars]
    exact and_congr (hal.solves_left x) (hal.solves_right x)

lemma join_cases (hb : b.IsReduced) : a.infeasible = true ∧ a.join b = b ∨
    b.infeasible = true ∧ a.join b = a ∨ a.Solvable ∧ b.Solvable := by
  by_cases haf : a.infeasible = true
  · exact .inl ⟨haf, if_pos haf⟩
  by_cases hbf : b.infeasible = true
  · exact .inr (.inl ⟨hbf, by rw [join, if_neg haf, if_pos hbf]⟩)
  · exact .inr (.inr ⟨ha.solvable haf, hb.solvable hbf⟩)

lemma join_reduced (hb : b.IsReduced) :
    (a.join b).IsReduced ∧ ∀ v ∈ (a.join b).vars, v ∈ a.vars ∨ v ∈ b.vars := by
  rcases join_cases ha hb with ⟨-, h⟩ | ⟨-, h⟩ | ⟨hsa, hsb⟩
  · rw [h]
    exact ⟨hb, fun _ => .inr⟩
  · rw [h]
    exact ⟨ha, fun _ => .inl⟩
  · rw [vars_join hsa hsb]
    exact ⟨(hsa.join hsb).1, fun _ => SortedSet.mem_union.1⟩

end

/-! ## Elements that operations make -/

lemma isReduced_withRows (a : Affine) (hlen : ∀ r ∈ rows, r.length = a.arity + 1) :
    (a.withRows rows).IsReduced ∧ ∀ k < a.arity, (∀ r ∈ rows, r.entry k = 0) →
      ∀ r ∈ (a.withRows rows).rows, r.entry k = 0 := by
  unfold withRows
  cases h : rowReduce rows a.arity with
  | none => exact ⟨(echelon_nil _).toReduced, by simp⟩
  | some reduced => exact ⟨(rowReduce_eq_some hlen h).1.toReduced,
    fun k hk => entry_of_rowReduce hlen h hk⟩

lemma length_row (a : Affine) (f : LinearForm) : (a.row f).length = a.arity + 1 := by
  simp [row, arity, SortedSet.size]

lemma vars_forget (a : Affine) (name : String) : (a.forget name).vars = a.vars := by
  unfold forget
  split
  · rfl
  · split <;> rfl

lemma size_erase {vars : SortedSet String} {name : String} (h : name ∈ vars) :
    (vars.erase name).size + 1 = vars.size := by
  have hfilter : (vars.erase name).toList = vars.toList.filter (· != name) :=
    filter_congr fun v _ => by
      rw [Bool.eq_iff_iff, bne_iff_ne, bne_iff_ne, ne_eq, Std.compare_eq_iff_eq, eq_comm]
  rw [SortedSet.size, hfilter, ← vars.nodup.erase_eq_filter, length_erase_add_one h, SortedSet.size]

namespace IsReduced

variable (ha : a.IsReduced)
include ha

lemma addVar (name : String) : (a.addVar name).IsReduced := by
  unfold Affine.addVar
  split
  · exact ha
  · exact (embed_spec ha fun v hv => SortedSet.mem_insert.2 (.inr hv)).1.isReduced

lemma addVars (names : List String) : (a.addVars names).IsReduced := by
  unfold Affine.addVars
  induction names generalizing a with
  | nil => exact ha
  | cons name names ih => exact ih (ha.addVar name)

/-- No equation mentions a forgotten variable. -/
lemma forget (name : String) : (a.forget name).IsReduced ∧
    ∀ k, a.index? name = some k → ∀ r ∈ (a.forget name).rows, r.entry k = 0 := by
  unfold Affine.forget
  split
  next h => exact ⟨ha, by simp [h]⟩
  next k hk =>
    split
    next h =>
      refine ⟨ha, fun j hj r hr => ?_⟩
      cases hk.symm.trans hj
      simpa using List.findIdx?_eq_none_iff.1 h r hr
    next i h =>
      obtain ⟨hi, hne, -⟩ := List.findIdx?_eq_some_iff_getElem.1 h
      rw [getD_eq_getElem _ _ hi]
      have hrow : ∀ r ∈ a.rows.eraseIdx i, r.length = a.arity + 1 := fun r hr =>
        ha.length r (mem_of_mem_eraseIdx hr)
      have hlen : ∀ r ∈ a.rows.eraseIdx i,
        r.length = (a.rows[i].divide (a.rows[i].entry k)).length := fun r hr => by
        rw [hrow r hr, divide, length_map, ha.length _ (getElem_mem hi)]
      obtain ⟨hreduced, hzero⟩ := isReduced_withRows a (List.forall_mem_map.2 fun r hr =>
        (length_minus (hlen r hr) (r.entry k)).trans (hrow r hr))
      refine ⟨hreduced, fun j hj => ?_⟩
      cases hk.symm.trans hj
      refine hzero k (List.idxOf?_eq_some_iff.1 hk).1 (List.forall_mem_map.2 fun r hr => ?_)
      rw [entry_minus (hlen r hr), entry_divide, div_self (by simpa using hne), mul_one, sub_self]

lemma removeVar (name : String) : (a.removeVar name).IsReduced := by
  obtain ⟨hreduced, hzero⟩ := ha.forget name
  unfold Affine.removeVar
  split
  · exact ha
  next k hk =>
    obtain ⟨hlt, hname, -⟩ := List.idxOf?_eq_some_iff.1 hk
    have hsize : (a.vars.erase name).size + 1 = a.vars.size := size_erase (hname ▸ getElem_mem hlt)
    have hle : k ≤ (a.vars.erase name).size := by
      have : k < a.vars.size := hlt
      omega
    simp only [IsReduced, arity, vars_forget, ← hsize] at hreduced
    simp only [IsReduced, arity, vars_forget]
    exact hreduced.eraseIdx hle (hzero k hk)

lemma assign (name : String) (f : LinearForm) : (a.assign name f).IsReduced := by
  have hvars := (ha.addVar name).addVars f.vars
  unfold Affine.assign
  split
  · exact ha
  dsimp only
  split
  · exact hvars
  split
  · exact (addRows_spec (hvars.forget name).1 (by simpa using length_row _ f)).1
  · refine (isReduced_withRows _ (List.forall_mem_map.2 fun r hr => ?_)).1
    have hlen := hvars.length r hr
    rw [length_minus (by rw [length_set, hlen, length_row]), length_set, hlen]

lemma guard (c : LinearConstraint) : (a.guard c).IsReduced := by
  unfold Affine.guard
  split
  · exact ha
  split
  · exact (addRows_spec (ha.addVars _) (by simpa using length_row _ c.form)).1
  all_goals
    dsimp only
    split
    exacts [(echelon_nil 0).toReduced, ha]

end IsReduced

/-- The elements that operations make from those without equations and without valuations. -/
inductive Derived : Affine → Prop
  | bottom : Derived bottom
  | top : Derived top
  | addVar {a : Affine} (ha : Derived a) (name : String) : Derived (a.addVar name)
  | removeVar {a : Affine} (ha : Derived a) (name : String) : Derived (a.removeVar name)
  | forget {a : Affine} (ha : Derived a) (name : String) : Derived (a.forget name)
  | assign {a : Affine} (ha : Derived a) (name : String) (f : LinearForm) :
    Derived (a.assign name f)
  | guard {a : Affine} (ha : Derived a) (c : LinearConstraint) : Derived (a.guard c)
  | join {a b : Affine} (ha : Derived a) (hb : Derived b) : Derived (a.join b)
  | meet {a b : Affine} (ha : Derived a) (hb : Derived b) : Derived (a.meet b)
  | widen {a b : Affine} (ha : Derived a) (hb : Derived b) : Derived (a.widen b)
  | narrow {a b : Affine} (ha : Derived a) (hb : Derived b) : Derived (a.narrow b)

lemma Derived.isReduced (h : Derived a) : a.IsReduced := by
  induction h with
  | bottom | top => exact (echelon_nil 0).toReduced
  | addVar _ name ih => exact ih.addVar name
  | removeVar _ name ih => exact ih.removeVar name
  | forget _ name ih => exact (ih.forget name).1
  | assign _ name f ih => exact ih.assign name f
  | guard _ c ih => exact ih.guard c
  | join _ _ iha ihb | widen _ _ iha ihb => exact (join_reduced iha ihb).1
  | meet _ _ iha ihb | narrow _ _ iha ihb => exact (meet_spec iha ihb).1

/-! ## Hulls -/

lemma mem_directions_of_vanish (h : ∀ v ∈ a.vars, d v = 0) : d ∈ a.directions := by
  refine mem_directions.2 fun r _ => ?_
  rw [arity, product_columns]
  exact Finset.sum_eq_zero fun v hv => by rw [h v (List.mem_toFinset.1 hv), mul_zero]

lemma mem_valuations_iff_sub (hy : y ∈ a.valuations) : x ∈ a.valuations ↔ x - y ∈ a.directions :=
  (and_iff_right hy.1).trans (solves_iff_sub_mem hy.2)

/-- The valuations of an element as a subspace. -/
def space (a : Affine) : AffineSubspace Rat (String → Rat) where
  carrier := a.valuations
  smul_vsub_vadd_mem' q {x y z} hx hy hz := by
    refine (mem_valuations_iff_sub hz).2 ?_
    rw [vadd_eq_add, add_sub_cancel_right]
    exact a.directions.smul_mem q ((mem_valuations_iff_sub hy).1 hx)

lemma affineSpan_valuations (a : Affine) :
    (affineSpan Rat a.valuations : Set (String → Rat)) = a.valuations :=
  congrArg SetLike.coe (AffineSubspace.affineSpan_coe a.space)

lemma directions_le_direction {S : AffineSubspace Rat (String → Rat)} (hy : y ∈ a.valuations)
    (h : a.valuations ⊆ S) : a.directions ≤ S.direction := by
  intro d hd
  have hmem : y + d ∈ S := h ((mem_valuations_iff_sub hy).2 (by rwa [add_sub_cancel_left]))
  have hsub := AffineSubspace.vsub_mem_direction hmem (h hy)
  rwa [vsub_eq_sub, add_sub_cancel_left] at hsub

/-- A form that vanishes in the directions of an element depends on the variables of the element
alone, and over them it is the left-hand side of an equation. -/
lemma exists_equation (vars : SortedSet String) (hsub : ∀ v ∈ a.vars, v ∈ vars)
    {f : (String → Rat) →ₗ[Rat] Rat} (hf : a.directions ≤ LinearMap.ker f) (q : Rat) :
    ∃ u : Row, u.length = vars.size + 1 ∧ ∀ x, u.Holds vars.size (columns vars x) ↔ f x = q := by
  refine ⟨vars.toList.map (fun v => f (Pi.single v 1)) ++ [q], by simp [SortedSet.size],
    fun x => ?_⟩
  have hrest : x - ∑ v ∈ vars.toList.toFinset, x v • Pi.single v 1 ∈ a.directions := by
    refine mem_directions_of_vanish fun v hv => ?_
    have hmem : v ∈ vars.toList := hsub v hv
    simp [Finset.sum_apply, Pi.single_apply, hmem]
  have hvalue := LinearMap.mem_ker.1 (hf hrest)
  rw [map_sub, map_sum, sub_eq_zero] at hvalue
  rw [holds_concat (by simp [SortedSet.size]), hvalue, product_columns]
  refine Eq.congr_left (sum_congr rfl fun v hv => ?_)
  obtain ⟨c, hc, rfl⟩ := getElem_of_mem (List.mem_toFinset.1 hv)
  rw [coeff_getElem hc, map_smul, smul_eq_mul, mul_comm]
  simp [Row.entry, hc]

lemma valuations_join (ha : a.IsReduced) (hb : b.IsReduced) :
    (a.join b).valuations = affineSpan Rat (a.valuations ∪ b.valuations) := by
  rcases join_cases ha hb with ⟨haf, h⟩ | ⟨hbf, h⟩ | ⟨hsa, hsb⟩
  · rw [h, valuations_of_infeasible haf, empty_union, affineSpan_valuations]
  · rw [h, valuations_of_infeasible hbf, union_empty, affineSpan_valuations]
  refine subset_antisymm (fun x hx => ?_)
    (affineSpan_le (Q := (a.join b).space).2 (union_subset ?_ ?_))
  · by_contra hnot
    have hunion := subset_affineSpan Rat (a.valuations ∪ b.valuations)
    obtain ⟨y, hy⟩ := hsa.1.exists_solves
    have hymem : y ∈ a.valuations := ⟨hsa.2, hy⟩
    have hyS := hunion (.inl hymem)
    -- Were `x` outside the hull, a linear form with one value there would have another one at `x`.
    obtain ⟨f, hfx, hker⟩ := exists_le_ker_of_notMem fun h =>
      hnot ((AffineSubspace.vsub_right_mem_direction_iff_mem hyS x).1 h)
    have hconst : ∀ z ∈ a.valuations ∪ b.valuations, f z = f y := fun z hz => by
      rw [← sub_eq_zero, ← map_sub]
      exact hker (AffineSubspace.vsub_mem_direction (hunion hz) hyS)
    obtain ⟨u, hlen, hu⟩ := exists_equation (a.vars.union b.vars)
      (fun v hv => SortedSet.mem_union.2 (.inl hv))
      ((directions_le_direction hymem (Set.subset_union_left.trans hunion)).trans hker) (f y)
    have hholds := ((join_spec hsa hsb).2 x).1 hx.2 u hlen (fun z hz =>
      (hu z).2 (hconst z (.inl ⟨hsa.2, hz⟩))) fun z hz => (hu z).2 (hconst z (.inr ⟨hsb.2, hz⟩))
    exact hfx (by rw [vsub_eq_sub, map_sub, (hu x).1 hholds, sub_self])
  · exact fun x hx => ⟨(hsa.join hsb).2, hx.2.join_left hsa hsb⟩
  · exact fun x hx => ⟨(hsa.join hsb).2, hx.2.join_right hsa hsb⟩

/-! ## Sequences of joins -/

section Rank

variable {names : Finset String}

/-- The values of given names alone. -/
def restrict (names : Finset String) : (String → Rat) →ₗ[Rat] (names → Rat) :=
  LinearMap.funLeft Rat Rat (↑)

/-- One more than the dimension of the valuations over given names, zero if there are none. -/
noncomputable def rank (names : Finset String) (a : Affine) : ℕ :=
  if a.infeasible then 0 else finrank Rat (a.directions.map (restrict names)) + 1

lemma rank_le (names : Finset String) (a : Affine) : a.rank names ≤ names.card + 1 := by
  unfold rank
  split
  · exact Nat.zero_le _
  · have hle := finrank_le (a.directions.map (restrict names))
    rw [finrank_fintype_fun_eq_card, Fintype.card_coe] at hle
    exact succ_le_succ hle

lemma comap_map_restrict (hsub : ∀ v ∈ a.vars, v ∈ names) :
    (a.directions.map (restrict names)).comap (restrict names) = a.directions := by
  rw [comap_map_eq, sup_eq_left]
  exact fun d hd => mem_directions_of_vanish fun v hv => congrFun (LinearMap.mem_ker.1 hd)
    ⟨v, hsub v hv⟩

/-- More valuations have a larger rank. -/
lemma rank_lt (ha : a.IsReduced) (hasub : ∀ v ∈ a.vars, v ∈ names) (hbsub : ∀ v ∈ b.vars, v ∈ names)
    (h : a.valuations ⊂ b.valuations) : a.rank names < b.rank names := by
  obtain ⟨y, hyb, hya⟩ := exists_of_ssubset h
  unfold rank
  rw [if_neg (show ¬ b.infeasible = true by simp [hyb.1])]
  split
  · exact succ_pos _
  next haf =>
    obtain ⟨x, hx⟩ := ha.exists_solves
    have hxa : x ∈ a.valuations := ⟨by simpa using haf, hx⟩
    have hle : a.directions ≤ b.directions := directions_mono ha fun z hz => (h.1 ⟨hxa.1, hz⟩).2
    refine succ_lt_succ (finrank_lt_finrank_of_lt ?_)
    refine lt_of_le_of_ne (map_mono hle) fun heq => hya ?_
    rw [mem_valuations_iff_sub hxa, ← comap_map_restrict hasub, heq, comap_map_restrict hbsub]
    exact (mem_valuations_iff_sub (h.1 hxa)).1 hyb

/-- Each failure raises the rank, and the rank never falls. -/
lemma encard_failures_le {s t : ℕ → Affine} (hs : (s 0).IsReduced) (ht : ∀ k, (t k).IsReduced)
    (hstep : ∀ k, s (k + 1) = (s k).widen (t k)) (hsnames : ∀ v ∈ (s 0).vars, v ∈ names)
    (htnames : ∀ k, ∀ v ∈ (t k).vars, v ∈ names) :
    {k | (s (k + 1)).le (s k) = false}.encard ≤ names.card + 1 := by
  have hinv : ∀ k, (s k).IsReduced ∧ ∀ v ∈ (s k).vars, v ∈ names := by
    intro k
    induction k with
    | zero => exact ⟨hs, hsnames⟩
    | succ k ih =>
      rw [hstep k]
      obtain ⟨hreduced, hvars⟩ := join_reduced ih.1 (ht k)
      exact ⟨hreduced, fun v hv => (hvars v hv).elim (ih.2 v) (htnames k v)⟩
  have hsub : Monotone fun k => (s k).valuations := monotone_nat_of_le_succ fun k => by
    change (s k).valuations ⊆ (s (k + 1)).valuations
    rw [hstep k, widen, valuations_join (hinv k).1 (ht k)]
    exact Set.subset_union_left.trans (subset_affineSpan Rat _)
  have hlt : ∀ {k m}, k ≤ m → (s (m + 1)).le (s m) = false →
      (s k).rank names < (s (m + 1)).rank names := by
    intro k m hkm hfail
    refine rank_lt (hinv k).1 (hinv k).2 (hinv (m + 1)).2 ?_
    refine (hsub hkm).trans_ssubset ⟨hsub (le_succ m), fun hback => ?_⟩
    rw [(le_iff (hinv (m + 1)).1 (hinv m).1).2 hback] at hfail
    cases hfail
  have hmaps : Set.MapsTo (fun k => (s (k + 1)).rank names)
      {k | (s (k + 1)).le (s k) = false} (Finset.Icc 1 (names.card + 1)) := fun k hk =>
    mem_coe.2 (mem_Icc.2 ⟨one_le_of_lt (hlt le_rfl hk), rank_le _ _⟩)
  have hmono : StrictMonoOn (fun k => (s (k + 1)).rank names) {k | (s (k + 1)).le (s k) = false} :=
    fun k _ m hm hkm => hlt hkm hm
  refine (encard_le_encard_of_injOn hmaps hmono.injOn).trans_eq ?_
  rw [encard_coe_eq_coe_finsetCard, card_Icc]
  rfl

end Rank

/-- For elements that operations have made: the join stands for the smallest affine subspace around
both sides, the order is inclusion, and the meet is the intersection.  In a sequence of widenings
over `n` variables a step leaves the element below it at most `n + 1` times. -/
theorem join_eq_affineSpan (ha : a.Derived) (hb : b.Derived) :
    (a.join b).valuations = affineSpan Rat (a.valuations ∪ b.valuations) ∧
    (a.le b = true ↔ a.valuations ⊆ b.valuations) ∧
    (a.meet b).valuations = a.valuations ∩ b.valuations ∧
    ∀ (names : Finset String) (s t : ℕ → Affine), (s 0).Derived → (∀ k, (t k).Derived) →
      (∀ v ∈ (s 0).vars, v ∈ names) → (∀ k, ∀ v ∈ (t k).vars, v ∈ names) →
      (∀ k, s (k + 1) = (s k).widen (t k)) →
      {k | (s (k + 1)).le (s k) = false}.encard ≤ names.card + 1 := by
  have hra := ha.isReduced
  have hrb := hb.isReduced
  refine ⟨valuations_join hra hrb, le_iff hra hrb, (meet_spec hra hrb).2, ?_⟩
  intro names s t hs ht hsnames htnames hstep
  exact encard_failures_le hs.isReduced (fun k => (ht k).isReduced) hstep hsnames htnames

/-- Both variables have a known value. -/
def pinned (p q : Int) : Affine := (top.assign "i" ⟨.empty, p⟩).assign "j" ⟨.empty, q⟩

lemma derived_pinned (p q : Int) : (pinned p q).Derived := .assign (.assign .top _ _) _ _

/-- The corner that joins at a step: the origin, then one along each axis. -/
def corner (k : ℕ) : Affine := pinned (if k = 1 then 1 else 0) (if k = 2 then 1 else 0)

/-- The joins of the first corners. -/
def corners (k : ℕ) : Affine := ((List.range k).map corner).foldl widen bottom

/-- The line through two points, and a sequence over two variables: the hulls of the corners fail at
most three times to be below the one before. -/
theorem join_eq_affineSpan_pinned :
    ((pinned 0 0).join (pinned 1 2)).valuations =
      affineSpan Rat ((pinned 0 0).valuations ∪ (pinned 1 2).valuations) ∧
    ¬ (pinned 0 0).valuations ⊆ (pinned 1 2).valuations ∧
    (pinned 2 4).valuations ⊆ affineSpan Rat ((pinned 0 0).valuations ∪ (pinned 1 2).valuations) ∧
    {k | (corners (k + 1)).le (corners k) = false}.encard ≤ 3 := by
  obtain ⟨hhull, hle, -, hfail⟩ := join_eq_affineSpan (derived_pinned 0 0) (derived_pinned 1 2)
  obtain ⟨-, hbelow, -⟩ := join_eq_affineSpan (derived_pinned 2 4)
    (.join (derived_pinned 0 0) (derived_pinned 1 2))
  refine ⟨hhull, ?_, ?_, ?_⟩
  · rw [← hle]
    decide +kernel
  · rw [← hhull, ← hbelow]
    decide +kernel
  · refine hfail {"i", "j"} corners corner .bottom (fun k => derived_pinned _ _) (by decide)
      (fun k => ?_) fun k => ?_
    · unfold corner
      split <;> split <;> decide +kernel
    · simp [corners, range_succ]

end Affine
end StaticAnalysis
