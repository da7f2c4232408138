import StaticAnalysis.Proofs.Order.Containers
import StaticAnalysis.Proofs.Relation.Closure
import StaticAnalysis.Relation.Octagon

/-!
# Order of octagons

Octagons over different variables are compared over all their variables.  The closure of an octagon
is below it, so comparing bounds is enough (`le_of_bounds`); that gives the upper bounds.  It is not
enough that no bound is lost, as the join must not be found to be empty either.  An octagon with a
valuation never is (`Holds.close`), and its joins and widenings have that valuation too.
-/

namespace StaticAnalysis

open Ceiling Dbm List Option SortedSet

namespace Octagon

variable {o p : Octagon} {vars : SortedSet String} {x : String → Int} {i j : Nat}

/-- The matrix has two rows and two columns for each variable. -/
def Square (o : Octagon) : Prop := Dbm.Square (2 * o.vars.size) o.matrix

/-- Quantity number `i` of a set of variables: a variable or its negation. -/
def quantity (vars : SortedSet String) (x : String → Int) (i : Nat) : Int :=
  if i % 2 = 0 then (vars.toList[i / 2]?).elim 0 x else -(vars.toList[i / 2]?).elim 0 x

/-- A valuation of the variables respects all bounds. -/
def Holds (o : Octagon) (x : String → Int) : Prop := o.matrix.Holds (quantity o.vars x)

lemma quantity_twin (vars : SortedSet String) (x : String → Int) (i : Nat) :
    quantity vars x (Dbm.twin i) = -quantity vars x i := by
  unfold quantity Dbm.twin
  by_cases hi : i % 2 = 0
  · rw [if_pos hi, if_pos hi, if_neg (by omega), show (i + 1) / 2 = i / 2 by omega]
  · rw [if_neg hi, if_neg hi, if_pos (by omega), show (i - 1) / 2 = i / 2 by omega, neg_neg]

/-! ## Closing -/

@[simp] lemma vars_close (o : Octagon) : o.close.vars = o.vars := by
  unfold close
  split
  · rfl
  · dsimp only
    split <;> rfl

lemma refines_close (ho : o.Square) (h : o.close.infeasible = false) :
    Dbm.Refines (2 * o.vars.size) o.matrix o.close.matrix := by
  unfold close at h ⊢
  split at h
  next hf => simp [hf] at h
  next hf =>
    rw [if_neg hf]
    dsimp only at h ⊢
    split at h
    · cases h
    next hc =>
      have hpaths := refines_paths ho
      exact hpaths.trans (refines_clearDiagonal hpaths.square hc)

lemma infeasible_of_close (h : o.close.infeasible = false) : o.infeasible = false := by
  unfold close at h
  split at h
  next hf => simp [hf] at h
  next hf => simpa using hf

lemma square_close (ho : o.Square) (h : o.close.infeasible = false) : o.close.Square := by
  unfold Square
  rw [vars_close]
  exact (refines_close ho h).square

lemma Holds.close (hx : o.Holds x) (ho : o.Square) (hf : o.infeasible = false) :
    o.close.infeasible = false ∧ o.close.Holds x := by
  have hpaths := (refines_paths ho).holds _ (quantity_twin o.vars x) hx
  have hclose : o.close.infeasible = false := by
    unfold Octagon.close
    rw [if_neg (by simp [hf])]
    dsimp only
    have hc : o.matrix.shortestPaths.tighten.strengthen.contradiction? = none :=
      hpaths.contradiction?
    rw [hc]
    exact hf
  refine ⟨hclose, ?_⟩
  unfold Holds
  rw [vars_close]
  exact (refines_close ho hclose).holds _ (quantity_twin o.vars x) hx

structure Satisfiable (o : Octagon) : Prop where
  square : o.Square
  infeasible : o.infeasible = false
  valuation : ∃ x, o.Holds x

lemma Satisfiable.close (h : o.Satisfiable) : o.close.infeasible = false := by
  obtain ⟨x, hx⟩ := h.valuation
  exact (hx.close h.square h.infeasible).1

/-! ## Other variables -/

/-- The quantity of an octagon that is number `i` over other variables. -/
def place (o : Octagon) (vars : SortedSet String) (i : Nat) : Option Nat :=
  ((vars.toList.map o.index?)[i / 2]?).join.map fun k => 2 * k + i % 2

/-- The bound between two quantities of other variables. -/
def entry (o : Octagon) (vars : SortedSet String) (i j : Nat) : Ceiling :=
  match o.place vars i, o.place vars j with
  | some i', some j' => o.bound i' j'
  | _, _ => if i = j then some 0 else none

lemma bound_reindex (o : Octagon) (vars : SortedSet String) (i j : Nat) :
    (o.reindex vars).bound i j =
      if i < 2 * vars.size ∧ j < 2 * vars.size then o.entry vars i j else none :=
  bound_ofFn _ _ _ _

lemma square_reindex (o : Octagon) (vars : SortedSet String) : (o.reindex vars).Square :=
  square_ofFn (2 * vars.size) (o.entry vars)

lemma place_spec {i' : Nat} (h : o.place vars i = some i') :
    o.vars.toList[i' / 2]? = vars.toList[i / 2]? ∧ i' % 2 = i % 2 := by
  obtain ⟨k, hk, rfl⟩ := map_eq_some_iff.1 h
  rw [join_eq_some_iff, getElem?_map, map_eq_some_iff] at hk
  obtain ⟨name, hname, hk⟩ := hk
  obtain ⟨hlt, hget, -⟩ := idxOf?_eq_some_iff.1 hk
  refine ⟨?_, by omega⟩
  rw [show (2 * k + i % 2) / 2 = k by omega, hname, getElem?_eq_getElem hlt, hget]

lemma quantity_place {i' : Nat} (h : o.place vars i = some i') (x : String → Int) :
    quantity o.vars x i' = quantity vars x i := by
  obtain ⟨hget, hmod⟩ := place_spec h
  unfold quantity
  rw [hget, hmod]

lemma place_self (hi : i < 2 * o.vars.size) : o.place o.vars i = some i := by
  have hlt : i / 2 < o.vars.toList.length := by
    have : o.vars.size = o.vars.toList.length := rfl
    omega
  have hindex : o.index? o.vars.toList[i / 2] = some (i / 2) := o.vars.idxOf?_getElem hlt
  unfold place
  rw [getElem?_map, getElem?_eq_getElem hlt]
  simp only [map_some, join_some, hindex]
  congr 1
  omega

lemma entry_self (h : i < 2 * o.vars.size ∧ j < 2 * o.vars.size) :
    o.entry o.vars i j = o.bound i j := by
  unfold entry
  rw [place_self h.1, place_self h.2]

lemma bound_reindex_self (ho : o.Square) (i j : Nat) :
    (o.reindex o.vars).bound i j = o.bound i j := by
  rw [bound_reindex]
  split
  next h => exact entry_self h
  next h => exact (Dbm.Square.bound_eq_none ho h).symm

lemma entry_mono (hvars : o.vars = p.vars) (h : ∀ i j, (o.bound i j).le (p.bound i j))
    (vars : SortedSet String) (i j : Nat) : (o.entry vars i j).le (p.entry vars i j) := by
  have hplace : ∀ i, o.place vars i = p.place vars i := by
    intro i
    unfold place index?
    rw [hvars]
  unfold entry
  rw [hplace i, hplace j]
  split
  · exact h _ _
  · exact le_self _

lemma admits_entry (hx : o.Holds x) (vars : SortedSet String) (i j : Nat) :
    (o.entry vars i j).Admits (quantity vars x j - quantity vars x i) := by
  unfold entry
  split
  next i' j' hi hj =>
    rw [← quantity_place hi, ← quantity_place hj]
    exact hx i' j'
  next =>
    split
    next hij => simp [hij, admits_some]
    next => exact admits_none _

/-! ## Alignment -/

lemma vars_align (o p : Octagon) :
    (o.align p).1.vars = o.vars.union p.vars ∧ (o.align p).2.vars = o.vars.union p.vars := by
  unfold align
  split
  next h =>
    have hunion : o.vars.union p.vars = o.vars := ext_mem fun a => by simp [h]
    rw [hunion, h]
    exact ⟨rfl, rfl⟩
  next => exact ⟨rfl, rfl⟩

lemma square_align (ho : o.Square) (hp : p.Square) :
    (o.align p).1.Square ∧ (o.align p).2.Square := by
  unfold align
  split
  · exact ⟨ho, hp⟩
  · exact ⟨square_reindex _ _, square_reindex _ _⟩

lemma bound_align (ho : o.Square) (hp : p.Square) (i j : Nat) :
    (o.align p).1.bound i j = (o.reindex (o.vars.union p.vars)).bound i j ∧
      (o.align p).2.bound i j = (p.reindex (o.vars.union p.vars)).bound i j := by
  unfold align
  split
  next h =>
    have hunion : o.vars.union p.vars = o.vars := ext_mem fun a => by simp [h]
    rw [hunion]
    refine ⟨(bound_reindex_self ho i j).symm, ?_⟩
    rw [h]
    exact (bound_reindex_self hp i j).symm
  next => exact ⟨rfl, rfl⟩

lemma infeasible_align (o p : Octagon) : (o.align p).1.infeasible = o.infeasible := by
  unfold align
  split <;> rfl

section Pointwise

variable {f : Ceiling → Ceiling → Ceiling}

lemma vars_pointwise (f : Ceiling → Ceiling → Ceiling) (o p : Octagon) :
    (o.pointwise f p).vars = o.vars.union p.vars :=
  (vars_align o p).1

lemma infeasible_pointwise (f : Ceiling → Ceiling → Ceiling) (o p : Octagon) :
    (o.pointwise f p).infeasible = o.infeasible :=
  infeasible_align o p

lemma square_pointwise (ho : o.Square) (hp : p.Square) : (o.pointwise f p).Square :=
  square_map (square_align ho hp).1 fun i j c => f c ((o.align p).2.matrix.bound i j)

lemma bound_pointwise (ho : o.Square) (hp : p.Square)
    (h : i < 2 * (o.vars.union p.vars).size ∧ j < 2 * (o.vars.union p.vars).size) :
    (o.pointwise f p).bound i j =
      f (o.entry (o.vars.union p.vars) i j) (p.entry (o.vars.union p.vars) i j) := by
  have hsquare := (square_align ho hp).1
  unfold Square at hsquare
  rw [(vars_align o p).1] at hsquare
  have hmap := bound_map hsquare (fun i j c => f c ((o.align p).2.matrix.bound i j)) i j
  rw [if_pos h] at hmap
  refine hmap.trans ?_
  have hbound := bound_align ho hp i j
  rw [bound_reindex, bound_reindex, if_pos h, if_pos h] at hbound
  rw [← hbound.1, ← hbound.2]
  rfl

end Pointwise

/-! ## Comparison -/

lemma le_of_bounds (ho : o.Satisfiable) (hp : p.Satisfiable) (hvars : ∀ v ∈ o.vars, v ∈ p.vars)
    (h : ∀ i j, i < 2 * p.vars.size ∧ j < 2 * p.vars.size →
      (o.close.entry p.vars i j).le (p.bound i j)) : o.le p := by
  have hunion : o.close.vars.union p.vars = p.vars := ext_mem fun v => by
    rw [mem_union, vars_close, or_iff_right_of_imp (hvars v)]
  have hclose := square_close ho.square ho.close
  have hdim : (o.close.align p).1.matrix.dim = 2 * p.vars.size := by
    rw [(square_align hclose hp.square).1.dim, (vars_align _ _).1, hunion]
  simp only [le, ho.close, hp.infeasible, Bool.false_eq_true, if_false, Dbm.all₂, List.all_eq_true,
    mem_range]
  intro i hi j hj
  rw [hdim] at hi hj
  have hbound := bound_align hclose hp.square i j
  rw [hunion, bound_reindex, if_pos ⟨hi, hj⟩, bound_reindex_self hp.square] at hbound
  change (((o.close.align p).1.bound i j).le ((o.close.align p).2.bound i j)) = true
  rw [hbound.1, hbound.2]
  exact h i j ⟨hi, hj⟩

lemma entry_close_le (ho : o.Satisfiable) (vars : SortedSet String) (i j : Nat) :
    (o.close.entry vars i j).le (o.entry vars i j) :=
  entry_mono (vars_close o) (refines_close ho.square ho.close).le vars i j

lemma Satisfiable.le_self (h : o.Satisfiable) : o.le o :=
  le_of_bounds h h (fun _ hv => hv) fun i j hij => entry_self hij ▸ entry_close_le h o.vars i j

lemma Holds.of_entries (hx : o.Holds x) (hp : p.Square)
    (h : ∀ i j, i < 2 * p.vars.size ∧ j < 2 * p.vars.size →
      (o.entry p.vars i j).le (p.bound i j)) : p.Holds x := by
  intro i j
  by_cases hij : i < 2 * p.vars.size ∧ j < 2 * p.vars.size
  · exact (admits_entry hx p.vars i j).mono (h i j hij)
  · have hnone : p.matrix.bound i j = none := Dbm.Square.bound_eq_none hp hij
    rw [hnone]
    exact admits_none _

/-! ## Joins -/

section Join

variable (ho : o.Satisfiable) (hp : p.Satisfiable)
include ho hp

lemma join_eq : o.join p = o.close.pointwise Ceiling.max p.close := by
  simp [join, ho.close, hp.close]

lemma vars_join : (o.join p).vars = o.vars.union p.vars := by
  rw [join_eq ho hp, vars_pointwise, vars_close, vars_close]

lemma bound_join (h : i < 2 * (o.join p).vars.size ∧ j < 2 * (o.join p).vars.size) :
    (o.join p).bound i j =
      (o.close.entry (o.join p).vars i j).max (p.close.entry (o.join p).vars i j) := by
  rw [vars_join ho hp] at h ⊢
  have hbound := bound_pointwise (f := Ceiling.max) (i := i) (j := j)
    (square_close ho.square ho.close) (square_close hp.square hp.close)
  rw [vars_close, vars_close] at hbound
  rw [join_eq ho hp, hbound h]

lemma Satisfiable.join : (o.join p).Satisfiable := by
  have hsquare : (o.join p).Square := by
    rw [join_eq ho hp]
    exact square_pointwise (square_close ho.square ho.close) (square_close hp.square hp.close)
  refine ⟨hsquare, ?_, ho.valuation.imp fun x hx => ?_⟩
  · rw [join_eq ho hp, infeasible_pointwise, ho.close]
  · refine (hx.close ho.square ho.infeasible).2.of_entries hsquare fun i j hij => ?_
    rw [bound_join ho hp hij]
    exact le_max_left _ _

lemma le_join_left : o.le (o.join p) := by
  refine le_of_bounds ho (ho.join hp) (fun v hv => ?_) fun i j hij => ?_
  · rw [vars_join ho hp]
    exact mem_union.2 (.inl hv)
  · rw [bound_join ho hp hij]
    exact le_max_left _ _

lemma le_join_right : p.le (o.join p) := by
  refine le_of_bounds hp (ho.join hp) (fun v hv => ?_) fun i j hij => ?_
  · rw [vars_join ho hp]
    exact mem_union.2 (.inr hv)
  · rw [bound_join ho hp hij]
    exact le_max_right _ _

lemma le_join_comm : (o.join p).le (p.join o) := by
  have hvars : (o.join p).vars = (p.join o).vars := by
    rw [vars_join ho hp, vars_join hp ho, union_comm]
  refine le_of_bounds (ho.join hp) (hp.join ho) (fun v hv => hvars ▸ hv) fun i j hij => ?_
  refine Ceiling.le_trans (entry_close_le (ho.join hp) _ i j) ?_
  rw [bound_join hp ho hij, ← hvars]
  rw [← hvars] at hij
  rw [entry_self hij, bound_join ho hp hij, max_comm]
  exact le_self _

end Join

/-! ## Widenings -/

variable (a b : Ceiling)

/-- A bound that moved outward is dropped. -/
def keep : Ceiling := if b.le a then a else none

lemma le_keep_left : a.le (keep a b) := by
  unfold keep
  split <;> simp

lemma le_keep_right : b.le (keep a b) := by
  unfold keep
  split
  · assumption
  · simp

section Widen

variable (ho : o.Satisfiable) (hp : p.Satisfiable)
include ho hp

lemma widen_eq : o.widen p = o.pointwise keep p := by
  simp [widen, isBottom, ho.close, hp.infeasible]
  rfl

lemma vars_widen : (o.widen p).vars = o.vars.union p.vars := by
  rw [widen_eq ho hp, vars_pointwise]

lemma bound_widen (h : i < 2 * (o.widen p).vars.size ∧ j < 2 * (o.widen p).vars.size) :
    (o.widen p).bound i j =
      keep (o.entry (o.widen p).vars i j) (p.entry (o.widen p).vars i j) := by
  rw [vars_widen ho hp] at h ⊢
  rw [widen_eq ho hp, bound_pointwise ho.square hp.square h]

lemma Satisfiable.widen : (o.widen p).Satisfiable := by
  have hsquare : (o.widen p).Square := by
    rw [widen_eq ho hp]
    exact square_pointwise ho.square hp.square
  refine ⟨hsquare, ?_, ho.valuation.imp fun x hx => ?_⟩
  · rw [widen_eq ho hp, infeasible_pointwise, ho.infeasible]
  · refine hx.of_entries hsquare fun i j hij => ?_
    rw [bound_widen ho hp hij]
    exact le_keep_left _ _

lemma le_widen_left : o.le (o.widen p) := by
  refine le_of_bounds ho (ho.widen hp) (fun v hv => ?_) fun i j hij => ?_
  · rw [vars_widen ho hp]
    exact mem_union.2 (.inl hv)
  · rw [bound_widen ho hp hij]
    exact Ceiling.le_trans (entry_close_le ho _ i j) (le_keep_left _ _)

lemma le_widen_join : p.le (o.widen (o.join p)) := by
  have hj := ho.join hp
  have hvars : (o.widen (o.join p)).vars = (o.join p).vars := by
    rw [vars_widen ho hj, vars_join ho hp]
    exact ext_mem fun v => by simp
  refine le_of_bounds hp (ho.widen hj) (fun v hv => ?_) fun i j hij => ?_
  · rw [hvars, vars_join ho hp]
    exact mem_union.2 (.inr hv)
  · rw [bound_widen ho hj hij]
    refine Ceiling.le_trans ?_ (le_keep_right _ _)
    rw [hvars] at hij ⊢
    rw [entry_self hij, bound_join ho hp hij]
    exact le_max_right _ _

end Widen

end Octagon
end StaticAnalysis
