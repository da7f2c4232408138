import Mathlib.Data.List.GetD
import StaticAnalysis.Proofs.Order.Containers
import StaticAnalysis.Proofs.Relation.RowReduction

/-!
# Order of affine equalities

A system is compared by its solutions, which give a value to every name.  More variables do not
change the solutions (`embed_spec`), and a system is below another exactly if all of its solutions
solve the other (`le_iff_solves`).  The solutions of a join are those of all equations that hold in
both systems (`solves_join`): both sides are below it, and their order does not matter.
-/

namespace StaticAnalysis

open Option Row SortedSet
open List hiding forall_mem_map map_map all_eq_true product

namespace Affine

variable {a b : Affine} {vars : SortedSet String} {x y : String → Rat} {r : Row} {c : Nat}

def IsReduced (a : Affine) : Prop := Reduced a.arity a.rows

/-- The equations are in reduced row echelon form. -/
def Canonical (a : Affine) : Prop := Echelon a.arity a.rows

lemma Canonical.isReduced (ha : a.Canonical) : a.IsReduced := ha.toReduced

/-- The value of each unknown. -/
def columns (vars : SortedSet String) (x : String → Rat) (c : Nat) : Rat :=
  x (vars.toList.getD c "")

def Solves (a : Affine) (x : String → Rat) : Prop :=
  ∀ r ∈ a.rows, r.Holds a.arity (columns a.vars x)

lemma exists_columns (vars : SortedSet String) (y : Nat → Rat) :
    ∃ x, ∀ c < vars.size, columns vars x c = y c := by
  refine ⟨fun v => (vars.toList.idxOf? v).elim 0 y, fun c hc => ?_⟩
  have hlt : c < vars.toList.length := hc
  simp only [columns, getD_eq_getElem _ _ hlt, vars.idxOf?_getElem hlt, elim_some]

def Solvable (a : Affine) : Prop := a.IsReduced ∧ a.infeasible = false

lemma IsReduced.exists_solves (ha : a.IsReduced) : ∃ x, a.Solves x := by
  obtain ⟨x, hx⟩ := exists_columns a.vars (entry (point a.arity a.rows))
  exact ⟨x, fun r hr => (holds_congr hx).2 (ha.holds_point r hr)⟩

/-! ## More variables -/

def coeff (vars : SortedSet String) (r : Row) (v : String) : Rat :=
  (vars.toList.idxOf? v).elim 0 r.entry

lemma coeff_of_not_mem {v : String} (h : v ∉ vars) : coeff vars r v = 0 := by
  rw [coeff, List.idxOf?_eq_none_iff.2 h, elim_none]

lemma coeff_getElem (hc : c < vars.toList.length) : coeff vars r vars.toList[c] = r.entry c := by
  rw [coeff, vars.idxOf?_getElem hc, elim_some]

lemma product_columns (vars : SortedSet String) (r : Row) (x : String → Rat) :
    r.product vars.size (columns vars x) = ∑ v ∈ vars.toList.toFinset, coeff vars r v * x v := by
  unfold product
  refine Finset.sum_bij (fun c _ => vars.toList.getD c "") ?_ ?_ ?_ ?_
  · intro c hc
    have hlt : c < vars.toList.length := Finset.mem_range.1 hc
    rw [getD_eq_getElem _ _ hlt]
    exact List.mem_toFinset.2 (getElem_mem hlt)
  · intro c hc d hd heq
    have hc : c < vars.toList.length := Finset.mem_range.1 hc
    have hd : d < vars.toList.length := Finset.mem_range.1 hd
    rw [getD_eq_getElem _ _ hc, getD_eq_getElem _ _ hd] at heq
    exact vars.nodup.getElem_inj_iff.1 heq
  · intro v hv
    obtain ⟨c, hc, rfl⟩ := getElem_of_mem (List.mem_toFinset.1 hv)
    exact ⟨c, Finset.mem_range.2 hc, getD_eq_getElem _ _ hc⟩
  · intro c hc
    have hlt : c < vars.toList.length := Finset.mem_range.1 hc
    unfold columns
    rw [getD_eq_getElem _ _ hlt, coeff_getElem hlt]

/-- An equation written for more variables. -/
def spread (a : Affine) (vars : SortedSet String) (r : Row) : Row :=
  vars.toList.map (coeff a.vars r) ++ [r.entry a.arity]

lemma embed_eq (a : Affine) (vars : SortedSet String) :
    a.embed vars = withRows ⟨vars, a.rows, a.infeasible⟩ (a.rows.map (a.spread vars)) := by
  unfold embed spread coeff
  simp only [List.map_map]
  rfl

lemma holds_spread (hsub : ∀ v ∈ a.vars, v ∈ vars) (r : Row) (x : String → Rat) :
    (a.spread vars r).Holds vars.size (columns vars x) ↔ r.Holds a.arity (columns a.vars x) := by
  have hproduct : r.product a.vars.size (columns a.vars x) =
      (a.spread vars r).product vars.size (columns vars x) := by
    rw [product_columns, product_columns]
    refine (Finset.sum_subset (fun v hv => ?_) fun v _ hv => ?_).trans
      (Finset.sum_congr rfl fun v hv => ?_)
    · exact List.mem_toFinset.2 (hsub v (List.mem_toFinset.1 hv))
    · rw [coeff_of_not_mem fun h => hv (List.mem_toFinset.2 h), zero_mul]
    · obtain ⟨c, hc, rfl⟩ := getElem_of_mem (List.mem_toFinset.1 hv)
      simp [coeff_getElem hc, spread, entry, getElem?_append, hc]
  unfold Row.Holds arity
  rw [hproduct]
  simp [spread, entry, size, arity]

lemma withRows_spec {rows : List Row} (hlen : ∀ r ∈ rows, r.length = a.arity + 1)
    (hx : ∀ r ∈ rows, r.Holds a.arity (columns a.vars x)) :
    (a.withRows rows).Canonical ∧
      ∀ y, (a.withRows rows).Solves y ↔ ∀ r ∈ rows, r.Holds a.arity (columns a.vars y) := by
  obtain ⟨reduced, heq, hreduced, hholds⟩ := rowReduce_spec hlen hx
  have hrows : a.withRows rows = { a with rows := reduced } := by
    rw [withRows, heq, getD_some]
  rw [hrows]
  exact ⟨hreduced, fun y => hholds _⟩

lemma embed_spec (ha : a.IsReduced) (hsub : ∀ v ∈ a.vars, v ∈ vars) :
    (a.embed vars).Canonical ∧ ∀ x, (a.embed vars).Solves x ↔ a.Solves x := by
  obtain ⟨x₀, hx₀⟩ := ha.exists_solves
  have hlen : ∀ s ∈ a.rows.map (a.spread vars), s.length = vars.size + 1 := by
    intro s hs
    obtain ⟨r, -, rfl⟩ := List.mem_map.1 hs
    simp [spread, size]
  have hholds : ∀ x, (∀ s ∈ a.rows.map (a.spread vars), s.Holds vars.size (columns vars x)) ↔
      a.Solves x := by
    intro x
    simp only [List.forall_mem_map, holds_spread hsub]
    rfl
  rw [embed_eq]
  obtain ⟨hreduced, hsolves⟩ :=
    withRows_spec (a := ⟨vars, a.rows, a.infeasible⟩) hlen ((hholds x₀).2 hx₀)
  exact ⟨hreduced, fun x => (hsolves x).trans (hholds x)⟩

/-- Both systems over the same variables, with the solutions they had. -/
structure Aligned (a b a' b' : Affine) : Prop where
  vars_left : a'.vars = a.vars.union b.vars
  vars_right : b'.vars = a.vars.union b.vars
  reduced_left : a'.IsReduced
  reduced_right : b'.IsReduced
  solves_left : ∀ x, a'.Solves x ↔ a.Solves x
  solves_right : ∀ x, b'.Solves x ↔ b.Solves x

lemma aligned_align (ha : a.IsReduced) (hb : b.IsReduced) :
    Aligned a b (a.align b).1 (a.align b).2 := by
  unfold align
  split
  next heq =>
    refine ⟨?_, ?_, ha, hb, fun _ => Iff.rfl, fun _ => Iff.rfl⟩
    · rw [← heq, union_self]
    · rw [heq, union_self]
  next =>
    obtain ⟨hra, hsa⟩ := embed_spec ha fun v hv => mem_union.2 (.inl hv)
    obtain ⟨hrb, hsb⟩ := embed_spec hb fun v hv => mem_union.2 (.inr hv)
    exact ⟨rfl, rfl, hra.isReduced, hrb.isReduced, hsa, hsb⟩

/-! ## Order -/

lemma le_iff_solves (ha : a.Solvable) (hb : b.Solvable) :
    a.le b ↔ ∀ x, a.Solves x → b.Solves x := by
  have hal := aligned_align ha.1 hb.1
  rw [le, if_neg (by simp [ha.2]), if_neg (by simp [hb.2])]
  generalize a.align b = p at hal
  obtain ⟨a', b'⟩ := p
  dsimp only at hal ⊢
  have hvars : b'.vars = a'.vars := hal.vars_right.trans hal.vars_left.symm
  have hb' : b'.IsReduced := hal.reduced_right
  simp only [← hal.solves_left, ← hal.solves_right, List.all_eq_true]
  simp only [Solves, IsReduced, arity, hvars] at hb' ⊢
  constructor
  · intro h x hx r hr
    exact (hal.reduced_left.isZero_residue_iff (hb'.length r hr)).1 (h r hr) _ hx
  · intro h r hr
    refine (hal.reduced_left.isZero_residue_iff (hb'.length r hr)).2 fun y hy => ?_
    obtain ⟨x, hx⟩ := exists_columns a'.vars y
    exact (holds_congr hx).1 (h x (fun s hs => (holds_congr hx).2 (hy s hs)) r hr)

/-! ## Hull -/

lemma product_comm {n : Nat} (u v : Row) : u.product n v.entry = v.product n u.entry :=
  Finset.sum_congr rfl fun _ _ => mul_comm _ _

lemma dot_eq_product {n : Nat} {u v : List Rat} (hu : u.length = n) (hv : v.length = n) :
    dot u v = product n u (entry v) := by
  have hfold : ∀ (l : List Rat) (q : Rat),
      l.foldl (· + ·) q = q + ∑ c ∈ Finset.range l.length, entry l c := by
    intro l
    induction l with
    | nil => simp
    | cons hd tl ih =>
      intro q
      rw [foldl_cons, ih, length_cons, Finset.sum_range_succ']
      simp only [entry, getD_cons_succ, getD_cons_zero]
      ring
  unfold dot product
  rw [hfold, zero_add, length_zipWith, hu, hv, Nat.min_self]
  refine Finset.sum_congr rfl fun c hc => ?_
  have hc := Finset.mem_range.1 hc
  simp [entry, hu, hv, hc]

/-- The vector from one point to another, as a row. -/
def difference (n : Nat) (x y : Nat → Rat) : Row := (List.range (n + 1)).map fun c => x c - y c

lemma product_difference {n : Nat} (u : Row) (x y : Nat → Rat) :
    u.product n (difference n x y).entry = u.product n x - u.product n y := by
  rw [← product_sub]
  exact product_congr fun c hc => Reduced.entry_map_range _ (Nat.lt_succ_of_lt hc)

section Span

variable {origin : List Rat} {directions : List (List Rat)}

lemma holds_concat {n : Nat} {u : List Rat} (hu : u.length = n) (q : Rat) (x : Nat → Rat) :
    Row.Holds n (u ++ [q]) x ↔ product n u x = q := by
  have hproduct : product n (u ++ [q]) x = product n u x :=
    Finset.sum_congr rfl fun c hc => by
      have hc := Finset.mem_range.1 hc
      simp [entry, getElem?_append, hu, hc]
  unfold Row.Holds
  rw [hproduct]
  simp [entry, ← hu]

lemma reduce_directions {n : Nat} (hdirs : ∀ d ∈ directions, d.length = n) :
    ∃ reduced, rowReduce (directions.map (· ++ [0])) n = some reduced ∧ Reduced n reduced ∧
      ∀ y, (∀ r ∈ reduced, r.product n y = 0) ↔ ∀ d ∈ directions, product n d y = 0 := by
  have hlen : ∀ r ∈ directions.map (· ++ [(0 : Rat)]), r.length = n + 1 := by
    simpa using hdirs
  have hholds : ∀ y, (∀ r ∈ directions.map (· ++ [(0 : Rat)]), Row.Holds n r y) ↔
      ∀ d ∈ directions, product n d y = 0 := by
    intro y
    rw [List.forall_mem_map]
    exact forall₂_congr fun d hd => holds_concat (hdirs d hd) 0 y
  have hzero : ∀ u : Row, u.product n (fun _ => 0) = 0 := fun u =>
    Finset.sum_eq_zero fun c _ => mul_zero _
  obtain ⟨reduced, heq, hreduced, hsame⟩ :=
    rowReduce_spec hlen ((hholds fun _ => 0).2 fun d _ => hzero d)
  have hentry : ∀ r ∈ reduced, r.entry n = 0 := fun r hr =>
    ((hsame _).2 ((hholds fun _ => 0).2 fun d _ => hzero d) r hr).symm.trans (hzero r)
  refine ⟨reduced, heq, hreduced.toReduced, fun y => ?_⟩
  rw [← hholds y, ← hsame y]
  exact forall₂_congr fun r hr => by rw [Row.Holds, hentry r hr]

lemma length_kernelVector {n : Nat} (rows : List Row) (f : Nat) :
    (kernelVector n rows f).length = n := by
  simp [kernelVector]

/-- A point is in the span exactly if every linear form that vanishes on the directions takes the
same value there as at the origin. -/
lemma span_spec (horigin : origin.length = vars.size)
    (hdirs : ∀ d ∈ directions, d.length = vars.size) :
    (span vars origin directions).Canonical ∧
      ∀ x, (span vars origin directions).Solves x ↔
        ∀ u : Row, (∀ d ∈ directions, u.product vars.size (entry d) = 0) →
          u.product vars.size (columns vars x) = u.product vars.size (entry origin) := by
  obtain ⟨reduced, heq, hreduced, hsame⟩ := reduce_directions hdirs
  have hspan : span vars origin directions = withRows ⟨vars, [], false⟩
      ((kernelBasis vars.size reduced).map fun u => u ++ [dot u origin]) := by
    simp only [span, heq, getD_some]
  have hholds : ∀ y, (∀ r ∈ (kernelBasis vars.size reduced).map fun u => u ++ [dot u origin],
      Row.Holds vars.size r y) ↔ ∀ f ∈ freeColumns vars.size reduced,
        product vars.size (kernelVector vars.size reduced f) y =
          product vars.size (kernelVector vars.size reduced f) (entry origin) := by
    intro y
    rw [List.forall_mem_map, kernelBasis, List.forall_mem_map]
    refine forall₂_congr fun f _ => ?_
    rw [holds_concat (length_kernelVector reduced f),
      dot_eq_product (length_kernelVector reduced f) horigin]
  have hlen : ∀ r ∈ (kernelBasis vars.size reduced).map fun u => u ++ [dot u origin],
      r.length = vars.size + 1 := by
    rw [List.forall_mem_map, kernelBasis, List.forall_mem_map]
    intro f _
    rw [length_append, length_kernelVector, length_singleton]
  obtain ⟨x₀, hx₀⟩ := exists_columns vars (entry origin)
  obtain ⟨hr, hsolves⟩ := withRows_spec (a := ⟨vars, [], false⟩) hlen
    ((hholds (columns vars x₀)).2 fun f _ => product_congr hx₀)
  rw [hspan]
  refine ⟨hr, fun x => (hsolves x).trans ((hholds _).trans ⟨fun h u hu => ?_, fun h f hf => ?_⟩)⟩
  · have hvanish : ∀ f ∈ freeColumns vars.size reduced,
        (difference vars.size (columns vars x) (entry origin)).product vars.size
          (entry (kernelVector vars.size reduced f)) = 0 := by
      intro f hf
      rw [product_comm, product_difference, h f hf, sub_self]
    have hzero := hreduced.product_eq_zero (by simp [difference]) hvanish
      ((hsame u.entry).2 fun d hd => (product_comm d u).trans (hu d hd))
    rw [product_comm, product_difference] at hzero
    exact sub_eq_zero.1 hzero
  · refine h _ fun d hd => ?_
    rw [product_comm]
    exact (hsame _).1 (hreduced.product_kernelVector hf) d hd

end Span

/-- An equation over given variables that holds in all solutions. -/
def Implies (a : Affine) (vars : SortedSet String) (u : Row) : Prop :=
  ∀ x, a.Solves x → u.Holds vars.size (columns vars x)

lemma implies_iff (ha : a.IsReduced) {u : Row} (hu : u.length = a.arity + 1) :
    a.Implies a.vars u ↔ u.Holds a.arity (entry (point a.arity a.rows)) ∧
      ∀ d ∈ kernelBasis a.arity a.rows, u.product a.arity (entry d) = 0 := by
  rw [kernelBasis, List.forall_mem_map, ← ha.implied_iff hu]
  refine ⟨fun h y hy => ?_, fun h x hx => h _ hx⟩
  obtain ⟨x, hx⟩ := exists_columns a.vars y
  exact (holds_congr hx).1 (h x fun r hr => (holds_congr hx).2 (hy r hr))

/-- The hull of two systems over the same variables. -/
def hull (a b : Affine) : Affine :=
  span a.vars (point a.arity a.rows)
    (kernelBasis a.arity a.rows ++ kernelBasis a.arity b.rows ++
      [List.zipWith (· - ·) (point a.arity b.rows) (point a.arity a.rows)])

lemma length_point (n : Nat) (rows : List Row) : (point n rows).length = n := by
  simp [point]

lemma product_zipWith_sub {n : Nat} (u : Row) {v w : List Rat} (hv : v.length = n)
    (hw : w.length = n) :
    u.product n (entry (List.zipWith (· - ·) v w)) =
      u.product n (entry v) - u.product n (entry w) := by
  rw [← product_sub]
  refine product_congr fun c hc => ?_
  simp [entry, hv, hw, hc]

lemma exists_row {n : Nat} (u : Row) (q : Rat) :
    ∃ u' : Row, u'.length = n + 1 ∧ u'.entry n = q ∧ ∀ x, u'.product n x = u.product n x := by
  refine ⟨(List.range n).map u.entry ++ [q], by simp, by simp [entry], fun x => ?_⟩
  refine Finset.sum_congr rfl fun c hc => ?_
  have hc := Finset.mem_range.1 hc
  simp [entry, getElem?_append, hc]

lemma hull_spec (ha : a.IsReduced) (hb : b.IsReduced) (hvars : b.vars = a.vars) :
    (hull a b).Canonical ∧ ∀ x, (hull a b).Solves x ↔
      ∀ u : Row, u.length = a.arity + 1 → a.Implies a.vars u → b.Implies a.vars u →
        u.Holds a.arity (columns a.vars x) := by
  have harity : b.arity = a.arity := by rw [arity, arity, hvars]
  have hbu : ∀ {u : Row}, u.length = a.arity + 1 → (b.Implies a.vars u ↔
      u.Holds a.arity (entry (point a.arity b.rows)) ∧
        ∀ d ∈ kernelBasis a.arity b.rows, u.product a.arity (entry d) = 0) := by
    intro u hu
    rw [← hvars, ← harity]
    exact implies_iff hb (harity ▸ hu)
  have hlen : ∀ d ∈ kernelBasis a.arity a.rows ++ kernelBasis a.arity b.rows ++
      [List.zipWith (· - ·) (point a.arity b.rows) (point a.arity a.rows)],
      d.length = a.vars.size := by
    have hn : a.vars.size = a.arity := rfl
    simp [kernelBasis, length_kernelVector, length_point, or_imp, forall_and, hn]
  obtain ⟨hreduced, hsolves⟩ := span_spec (length_point a.arity a.rows) hlen
  refine ⟨hreduced, fun x => (hsolves x).trans ⟨fun h u hu hua hub => ?_, fun h u hu => ?_⟩⟩
  · obtain ⟨hpoint, hdirs⟩ := (implies_iff ha hu).1 hua
    obtain ⟨hpoint', hdirs'⟩ := (hbu hu).1 hub
    refine (h u fun d hd => ?_).trans hpoint
    simp only [mem_append, mem_singleton] at hd
    rcases hd with (hd | hd) | rfl
    · exact hdirs d hd
    · exact hdirs' d hd
    · exact (product_zipWith_sub u (length_point _ _) (length_point _ _)).trans
        (sub_eq_zero.2 (hpoint'.trans hpoint.symm))
  · obtain ⟨u', hlen', hentry, hsame⟩ :=
      exists_row (n := a.arity) u (u.product a.arity (entry (point a.arity a.rows)))
    have hbetween := hu _ (mem_append_right _ (mem_singleton_self _))
    have hline := (product_zipWith_sub (n := a.arity) u (length_point _ b.rows)
      (length_point _ a.rows)).symm.trans hbetween
    have hx := h u' hlen' ((implies_iff ha hlen').2 ⟨?_, fun d hd => ?_⟩)
      ((hbu hlen').2 ⟨?_, fun d hd => ?_⟩)
    · rw [Row.Holds, hsame, hentry] at hx
      exact hx
    · rw [Row.Holds, hsame, hentry]
    · rw [hsame]
      exact hu d (mem_append_left _ (mem_append_left _ hd))
    · rw [Row.Holds, hsame, hentry]
      exact sub_eq_zero.1 hline
    · rw [hsame]
      exact hu d (mem_append_left _ (mem_append_right _ hd))

section Join

variable (ha : a.Solvable) (hb : b.Solvable)
include ha hb

lemma join_eq : a.join b = hull (a.align b).1 (a.align b).2 := by
  rw [join, if_neg (by simp [ha.2]), if_neg (by simp [hb.2])]
  rfl

lemma vars_join : (a.join b).vars = a.vars.union b.vars := by
  rw [join_eq ha hb, ← (aligned_align ha.1 hb.1).vars_left]
  rfl

lemma join_spec : (a.join b).Canonical ∧ ∀ x, (a.join b).Solves x ↔
    ∀ u : Row, u.length = (a.vars.union b.vars).size + 1 →
      a.Implies (a.vars.union b.vars) u → b.Implies (a.vars.union b.vars) u →
        u.Holds (a.vars.union b.vars).size (columns (a.vars.union b.vars) x) := by
  have hal := aligned_align ha.1 hb.1
  obtain ⟨hreduced, hsolves⟩ := hull_spec hal.reduced_left hal.reduced_right
    (hal.vars_right.trans hal.vars_left.symm)
  rw [join_eq ha hb]
  refine ⟨hreduced, fun x => (hsolves x).trans ?_⟩
  unfold Implies arity
  simp only [hal.solves_left, hal.solves_right, hal.vars_left]

lemma Solvable.join : (a.join b).Solvable :=
  ⟨(join_spec ha hb).1.isReduced, by rw [join_eq ha hb]; rfl⟩

lemma Solves.join_left (hx : a.Solves x) : (a.join b).Solves x :=
  ((join_spec ha hb).2 x).2 fun _ _ hua _ => hua x hx

lemma Solves.join_right (hx : b.Solves x) : (a.join b).Solves x :=
  ((join_spec ha hb).2 x).2 fun _ _ _ hub => hub x hx

lemma le_join_left : a.le (a.join b) :=
  (le_iff_solves ha (ha.join hb)).2 fun _ => Solves.join_left ha hb

lemma le_join_right : b.le (a.join b) :=
  (le_iff_solves hb (ha.join hb)).2 fun _ => Solves.join_right ha hb

lemma le_join_comm : (a.join b).le (b.join a) := by
  refine (le_iff_solves (ha.join hb) (hb.join ha)).2 fun x hx => ?_
  rw [(join_spec hb ha).2, union_comm]
  exact fun u hu hub hua => ((join_spec ha hb).2 x).1 hx u hu hua hub

lemma le_widen_join : b.le (a.widen (a.join b)) :=
  (le_iff_solves hb (ha.join (ha.join hb))).2 fun _ hx =>
    Solves.join_right ha (ha.join hb) (hx.join_right ha hb)

end Join

end Affine
end StaticAnalysis
