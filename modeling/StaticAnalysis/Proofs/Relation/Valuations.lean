import StaticAnalysis.Proofs.Numeric.Membership
import StaticAnalysis.Proofs.Relation.Order

/-!
# Valuations of octagons

An octagon describes the valuations of the program variables that respect all its bounds, and none
if it is marked as infeasible; a variable that is not tracked may have any value.  Closing keeps
what is described, whatever sums it leaves out because they are no words.  Comparison, joins,
widenings, meets and narrowing work bound by bound over the variables of both octagons, so what they
do to valuations is what they do to the two bounds on one difference.

All that is needed of the matrix is its size, and every operation keeps it (`Derived.square`).
-/

namespace StaticAnalysis

open Fault List Option Dbm Ceiling

namespace Ceiling

variable {c d : Ceiling} {x : Int}

lemma admits_min_iff : (c.min d).Admits x ↔ c.Admits x ∧ d.Admits x := by
  constructor
  · intro h
    cases c with
    | none => exact ⟨admits_none x, h⟩
    | some a =>
      cases d with
      | none => exact ⟨h, admits_none x⟩
      | some b =>
        simp only [min, admits_some] at h ⊢
        split at h <;> omega
  · exact fun h => admits_min h.1 h.2

lemma admits_max (h : c.Admits x ∨ d.Admits x) : (c.max d).Admits x := by
  rcases h with h | h
  · exact h.mono (le_max_left c d)
  · exact h.mono (le_max_right c d)

end Ceiling

namespace Dbm

variable {n : Nat} {m : Dbm}

lemma square_set (hm : Square n m) (i j : Nat) (c : Ceiling) : Square n (m.set i j c) where
  dim := by
    have hdim : m.rows.size = n := hm.dim
    simpa [dim, set] using hdim
  size p hp := by
    have hdim : m.rows.size = n := hm.dim
    have hsize := hm.size p hp
    unfold set row at *
    by_cases hpi : i = p
    · subst hpi
      simpa [hdim, hp] using hsize
    · simpa [hpi] using hsize

lemma square_constrain (hm : Square n m) (i j : Nat) (c : Int) : Square n (m.constrain i j c) :=
  square_set (square_set hm i j _) _ _ _

lemma square_clearDiagonal (hm : Square n m) (k : Nat) : Square n (m.clearDiagonal k) :=
  square_map hm _

end Dbm

namespace Octagon

variable {o p : Octagon} {vars : SortedSet String} {x : String → Int} {name : String}

/-! ## Sizes -/

section

variable (ho : o.Square)
include ho

lemma Square.close : o.close.Square := by
  have hpaths : Dbm.Square (2 * o.vars.size) o.matrix.shortestPaths.tighten.strengthen :=
    (refines_paths ho).square
  unfold Octagon.close
  split
  · exact ho
  · dsimp only
    split
    · exact square_clearDiagonal hpaths _
    · exact square_clearDiagonal hpaths _

lemma Square.addVar (name : String) : (o.addVar name).Square := by
  unfold Octagon.addVar
  split
  · exact ho
  · exact square_reindex _ _

lemma Square.addVars (names : List String) : (o.addVars names).Square := by
  unfold Octagon.addVars
  induction names generalizing o with
  | nil => exact ho
  | cons name names ih => exact ih (ho.addVar name)

lemma Square.removeVar (name : String) : (o.removeVar name).Square := by
  unfold Octagon.removeVar
  split
  · exact square_reindex _ _
  · exact ho

lemma Square.forget (name : String) : (o.forget name).Square := by
  unfold Octagon.forget
  split
  · exact ho
  next k _ =>
    exact square_map (m := o.close.matrix) ho.close
      fun i j c => if (i / 2 = k ∨ j / 2 = k) ∧ i ≠ j then none else c

lemma Square.constrain (i j : Nat) (c : Int) : (o.constrain i j c).Square :=
  square_constrain ho i j c

lemma Square.setBounds (name : String) (i : Interval) : (o.setBounds name i).Square := by
  unfold Octagon.setBounds
  split
  · exact ho
  · dsimp only
    split
    · exact ho.addVar name
    · refine Square.close ?_
      split
      · refine Square.constrain ?_ _ _ _
        split
        · exact (ho.addVar name).constrain _ _ _
        · exact ho.addVar name
      · split
        · exact (ho.addVar name).constrain _ _ _
        · exact ho.addVar name

lemma Square.guardTerms (f : LinearForm) : (o.guardTerms f).Square := by
  unfold Octagon.guardTerms
  generalize f.support = terms
  induction terms generalizing o with
  | nil => exact ho
  | cons term terms ih =>
    refine ih ?_
    dsimp only
    split
    · exact ho.setBounds _ _
    · exact ho

end

lemma Square.guardLe {f : LinearForm} (ho : o.Square) (h : o.guardLe f = .ok p) : p.Square := by
  have hvars := ho.addVars f.supportVars
  unfold Octagon.guardLe at h
  dsimp only at h
  split at h
  · cases h
    refine Square.close ?_
    split
    · exact hvars
    · exact hvars
  · split at h
    · split at h
      · cases h
        exact (hvars.constrain _ _ _).close
      · cases h
        exact hvars.close
    · cases h
      exact (hvars.guardTerms f).close
  · split at h
    · split at h
      · obtain ⟨c, -, h⟩ := bind_eq_ok.1 h
        cases h
        exact (hvars.constrain _ _ _).close
      · cases h
        exact hvars.close
    · cases h
      exact (hvars.guardTerms f).close
  · cases h
    exact (hvars.guardTerms f).close

lemma Square.guard {c : LinearConstraint} (ho : o.Square) (h : o.guard c = .ok p) : p.Square := by
  unfold Octagon.guard at h
  split at h
  · cases h
    exact ho
  · split at h
    · cases h
      split
      · exact ho
      · exact ho
    · obtain ⟨q, hq, h⟩ := bind_eq_ok.1 h
      obtain ⟨f, -, h⟩ := bind_eq_ok.1 h
      exact (ho.guardLe hq).guardLe h
    · exact ho.guardLe h

lemma Square.translate {c : Int} (ho : o.Square) (h : o.translate name c = .ok p) : p.Square := by
  unfold Octagon.translate at h
  split at h
  · cases h
    exact ho
  next k _ =>
    have hmoved := square_map (m := o.matrix) ho fun i j e =>
      e.shift (((if j = 2 * k then 1 else if j = 2 * k + 1 then -1 else 0) -
        (if i = 2 * k then 1 else if i = 2 * k + 1 then -1 else 0)) * c)
    split at h
    · obtain ⟨d, -, h⟩ := bind_eq_ok.1 h
      cases h
      exact hmoved
    · cases h
      exact hmoved

lemma Square.assign {f : LinearForm} (ho : o.Square) (h : o.assign name f = .ok p) : p.Square := by
  have hvars := (ho.addVar name).addVars f.vars
  unfold Octagon.assign at h
  split at h
  · cases h
    exact ho
  · dsimp only at h
    split at h
    · exact hvars.translate h
    · cases h
      exact (hvars.forget name).setBounds _ _
    · split at h
      · split at h
        · obtain ⟨c, -, h⟩ := bind_eq_ok.1 h
          cases h
          exact (((hvars.forget name).constrain _ _ _).constrain _ _ _).close
        · cases h
          exact hvars.forget name
      · cases h
        exact (hvars.forget name).setBounds _ _
    · cases h
      exact (hvars.forget name).setBounds _ _

lemma square_unconstrained (vars : SortedSet String) : (unconstrained vars).Square :=
  square_ofFn _ fun i j => if i = j then some 0 else none

lemma square_bottom : bottom.Square := square_unconstrained .empty

section

variable (ho : o.Square) (hp : p.Square)
include ho hp

lemma Square.join : (o.join p).Square := by
  unfold Octagon.join
  dsimp only
  split
  · exact hp.close
  · split
    · exact ho.close
    · exact square_pointwise ho.close hp.close

lemma Square.meet : (o.meet p).Square := by
  unfold Octagon.meet
  split
  · exact square_bottom
  · exact (square_pointwise ho hp).close

lemma Square.widen : (o.widen p).Square := by
  unfold Octagon.widen
  split
  · exact hp
  · split
    · exact ho
    · exact square_pointwise ho hp

lemma Square.narrow : (o.narrow p).Square := by
  unfold Octagon.narrow
  split
  · exact square_bottom
  · exact (square_pointwise ho hp).close

end

/-- The octagons that operations make from those without constraints and without valuations. -/
inductive Derived : Octagon → Prop
  | bottom : Derived bottom
  | top : Derived top
  | addVar {o : Octagon} (ho : Derived o) (name : String) : Derived (o.addVar name)
  | removeVar {o : Octagon} (ho : Derived o) (name : String) : Derived (o.removeVar name)
  | forget {o : Octagon} (ho : Derived o) (name : String) : Derived (o.forget name)
  | close {o : Octagon} (ho : Derived o) : Derived o.close
  | setBounds {o : Octagon} (ho : Derived o) (name : String) (i : Interval) :
    Derived (o.setBounds name i)
  | assign {o p : Octagon} {name : String} {f : LinearForm} (ho : Derived o)
    (h : o.assign name f = .ok p) : Derived p
  | guard {o p : Octagon} {c : LinearConstraint} (ho : Derived o) (h : o.guard c = .ok p) :
    Derived p
  | join {o p : Octagon} (ho : Derived o) (hp : Derived p) : Derived (o.join p)
  | meet {o p : Octagon} (ho : Derived o) (hp : Derived p) : Derived (o.meet p)
  | widen {o p : Octagon} (ho : Derived o) (hp : Derived p) : Derived (o.widen p)
  | narrow {o p : Octagon} (ho : Derived o) (hp : Derived p) : Derived (o.narrow p)

lemma Derived.square (h : Derived o) : o.Square := by
  induction h with
  | bottom => exact square_bottom
  | top => exact square_unconstrained .empty
  | addVar _ name ih => exact ih.addVar name
  | removeVar _ name ih => exact ih.removeVar name
  | forget _ name ih => exact ih.forget name
  | close _ ih => exact ih.close
  | setBounds _ name i ih => exact ih.setBounds name i
  | assign _ h ih => exact ih.assign h
  | guard _ h ih => exact ih.guard h
  | join _ _ iho ihp => exact iho.join ihp
  | meet _ _ iho ihp => exact iho.meet ihp
  | widen _ _ iho ihp => exact iho.widen ihp
  | narrow _ _ iho ihp => exact iho.narrow ihp

/-! ## Bounds over more variables -/

lemma div_two_lt_length {i : Nat} (hi : i < 2 * vars.size) : i / 2 < vars.toList.length := by
  have : vars.size = vars.toList.length := rfl
  omega

lemma exists_place_of_mem {i : Nat} {v : String} (hget : o.vars.toList[i / 2]? = some v)
    (hv : v ∈ vars) : ∃ k < 2 * vars.size, o.place vars k = some i := by
  obtain ⟨hlt, rfl⟩ := List.getElem?_eq_some_iff.1 hget
  obtain ⟨k, hk, hget⟩ := mem_iff_getElem.1 hv
  have hindex : o.index? o.vars.toList[i / 2] = some (i / 2) := o.vars.idxOf?_getElem hlt
  refine ⟨2 * k + i % 2, ?_, ?_⟩
  · have : vars.size = vars.toList.length := rfl
    omega
  · unfold place
    rw [show (2 * k + i % 2) / 2 = k by omega, getElem?_map, getElem?_eq_getElem hk, hget]
    simp only [map_some, join_some, hindex]
    congr 1
    omega

lemma exists_place {i : Nat} (hvars : ∀ v ∈ o.vars, v ∈ vars) (hi : i < 2 * o.vars.size) :
    ∃ k < 2 * vars.size, o.place vars k = some i :=
  exists_place_of_mem (getElem?_eq_getElem (div_two_lt_length hi)) (hvars _ (getElem_mem _))

lemma holds_iff_entries (ho : o.Square) (hvars : ∀ v ∈ o.vars, v ∈ vars) : o.Holds x ↔
    ∀ i j, i < 2 * vars.size → j < 2 * vars.size →
      (o.entry vars i j).Admits (quantity vars x j - quantity vars x i) := by
  constructor
  · exact fun hx i j _ _ => admits_entry hx vars i j
  · intro h i j
    by_cases hij : i < 2 * o.vars.size ∧ j < 2 * o.vars.size
    · obtain ⟨k, hk, hki⟩ := exists_place hvars hij.1
      obtain ⟨l, hl, hlj⟩ := exists_place hvars hij.2
      have hentry := h k l hk hl
      unfold entry at hentry
      rw [hki, hlj, ← quantity_place hki, ← quantity_place hlj] at hentry
      exact hentry
    · have hnone : o.matrix.bound i j = none := Dbm.Square.bound_eq_none ho hij
      rw [hnone]
      exact admits_none _

lemma holds_pointwise_iff {f : Ceiling → Ceiling → Ceiling} (ho : o.Square) (hp : p.Square) :
    (o.pointwise f p).Holds x ↔ ∀ i j, i < 2 * (o.vars.union p.vars).size →
      j < 2 * (o.vars.union p.vars).size →
      (f (o.entry (o.vars.union p.vars) i j) (p.entry (o.vars.union p.vars) i j)).Admits
        (quantity (o.vars.union p.vars) x j - quantity (o.vars.union p.vars) x i) := by
  have hsquare := square_pointwise (f := f) ho hp
  unfold Square at hsquare
  rw [vars_pointwise] at hsquare
  unfold Holds Dbm.Holds
  rw [vars_pointwise]
  constructor
  · intro h i j hi hj
    rw [← bound_pointwise (f := f) ho hp ⟨hi, hj⟩]
    exact h i j
  · intro h i j
    by_cases hij : i < 2 * (o.vars.union p.vars).size ∧ j < 2 * (o.vars.union p.vars).size
    · have hbound := bound_pointwise (f := f) ho hp hij
      unfold bound at hbound
      rw [hbound]
      exact h i j hij.1 hij.2
    · rw [hsquare.bound_eq_none hij]
      exact admits_none _

lemma mem_union_left (o p : Octagon) : ∀ v ∈ o.vars, v ∈ o.vars.union p.vars :=
  fun _ hv => SortedSet.mem_union.2 (.inl hv)

lemma mem_union_right (o p : Octagon) : ∀ v ∈ p.vars, v ∈ o.vars.union p.vars :=
  fun _ hv => SortedSet.mem_union.2 (.inr hv)

lemma le_iff_entries (ho : o.Square) (hp : p.Square) : o.le p ↔ o.close.infeasible ∨
    p.infeasible = false ∧ ∀ i j, i < 2 * (o.vars.union p.vars).size →
      j < 2 * (o.vars.union p.vars).size →
      (o.close.entry (o.vars.union p.vars) i j).le (p.entry (o.vars.union p.vars) i j) := by
  unfold le
  dsimp only
  cases hoc : o.close.infeasible with
  | true => simp
  | false =>
    cases hpf : p.infeasible with
    | true => simp
    | false =>
      have hdim : (o.close.align p).1.matrix.dim = 2 * (o.vars.union p.vars).size := by
        rw [(square_align ho.close hp).1.dim, (vars_align _ _).1, vars_close]
      have hbound : ∀ i j, i < 2 * (o.vars.union p.vars).size → j < 2 * (o.vars.union p.vars).size →
          (o.close.align p).1.matrix.bound i j = o.close.entry (o.vars.union p.vars) i j ∧
          (o.close.align p).2.matrix.bound i j = p.entry (o.vars.union p.vars) i j := by
        intro i j hi hj
        have hbound := bound_align ho.close hp i j
        rw [vars_close, bound_reindex, if_pos ⟨hi, hj⟩, bound_reindex, if_pos ⟨hi, hj⟩] at hbound
        exact hbound
      simp only [Bool.false_eq_true, if_false, false_or, true_and, Dbm.all₂, List.all_eq_true,
        mem_range, hdim]
      constructor
      · intro h i j hi hj
        rw [← (hbound i j hi hj).1, ← (hbound i j hi hj).2]
        exact h i hi j hj
      · intro h i hi j hj
        rw [(hbound i j hi hj).1, (hbound i j hi hj).2]
        exact h i j hi hj

/-! ## What octagons describe -/

/-- A valuation respects all bounds of an octagon that is not marked as infeasible. -/
def Describes (o : Octagon) (x : String → Int) : Prop := o.infeasible = false ∧ o.Holds x

lemma describes_close_iff (ho : o.Square) : o.close.Describes x ↔ o.Describes x := by
  constructor
  · rintro ⟨hf, hx⟩
    refine ⟨infeasible_of_close hf, fun i j => ?_⟩
    unfold Holds at hx
    rw [vars_close] at hx
    exact (hx i j).mono ((refines_close ho hf).le i j)
  · exact fun ⟨hf, hx⟩ => hx.close ho hf

section

variable (ho : o.Square) (hp : p.Square)
include ho hp

lemma Describes.of_le (h : o.le p) (hx : o.Describes x) : p.Describes x := by
  obtain ⟨hof, hox⟩ := (describes_close_iff ho).2 hx
  rcases (le_iff_entries ho hp).1 h with hinfeasible | ⟨hpf, hle⟩
  · rw [hof] at hinfeasible
    cases hinfeasible
  · refine ⟨hpf, (holds_iff_entries hp (mem_union_right o p)).2 fun i j hi hj => ?_⟩
    exact (admits_entry hox _ i j).mono (hle i j hi hj)

lemma Describes.join (hx : o.Describes x ∨ p.Describes x) : (o.join p).Describes x := by
  rw [← describes_close_iff ho, ← describes_close_iff hp] at hx
  unfold Octagon.join
  dsimp only
  split
  next hoc => exact hx.resolve_left fun h => by simp [h.1] at hoc
  next hoc =>
    split
    next hpc => exact hx.resolve_right fun h => by simp [h.1] at hpc
    next hpc =>
      rw [Bool.not_eq_true] at hoc
      refine ⟨(infeasible_pointwise _ _ _).trans hoc, ?_⟩
      rw [holds_pointwise_iff ho.close hp.close]
      intro i j _ _
      exact admits_max (hx.imp (fun h => admits_entry h.2 _ i j) fun h => admits_entry h.2 _ i j)

lemma Describes.widen (hx : o.Describes x ∨ p.Describes x) : (o.widen p).Describes x := by
  unfold Octagon.widen
  split
  next hoc =>
    refine hx.resolve_left fun h => ?_
    rw [isBottom, ((describes_close_iff ho).2 h).1] at hoc
    cases hoc
  next hoc =>
    split
    next hpf => exact hx.resolve_right fun h => by simp [h.1] at hpf
    next hpf =>
      rw [Bool.not_eq_true] at hoc
      refine ⟨(infeasible_pointwise _ _ _).trans (infeasible_of_close hoc), ?_⟩
      rw [holds_pointwise_iff ho hp]
      intro i j _ _
      rcases hx with hx | hx
      · exact (admits_entry hx.2 _ i j).mono (le_keep_left _ _)
      · exact (admits_entry hx.2 _ i j).mono (le_keep_right _ _)

lemma describes_meet_iff : (o.meet p).Describes x ↔ o.Describes x ∧ p.Describes x := by
  unfold Octagon.meet
  split
  next hf =>
    refine iff_of_false (fun h => absurd h.1 (by decide)) fun h => ?_
    rw [h.1.1, h.2.1] at hf
    cases hf
  next hf =>
    obtain ⟨hof, hpf⟩ : o.infeasible = false ∧ p.infeasible = false := by simpa using hf
    rw [describes_close_iff (square_pointwise ho hp)]
    unfold Describes
    rw [infeasible_pointwise, holds_pointwise_iff ho hp, holds_iff_entries ho (mem_union_left o p),
      holds_iff_entries hp (mem_union_right o p)]
    simp only [hof, hpf, true_and, admits_min_iff]
    exact ⟨fun h => ⟨fun i j hi hj => (h i j hi hj).1, fun i j hi hj => (h i j hi hj).2⟩,
      fun h i j hi hj => ⟨h.1 i j hi hj, h.2 i j hi hj⟩⟩

lemma Describes.narrow (hox : o.Describes x) (hpx : p.Describes x) : (o.narrow p).Describes x := by
  unfold Octagon.narrow
  rw [hox.1, hpx.1, if_neg (by simp), describes_close_iff (square_pointwise ho hp)]
  refine ⟨(infeasible_pointwise _ _ _).trans hox.1, ?_⟩
  rw [holds_pointwise_iff ho hp]
  intro i j _ _
  split
  · exact admits_entry hpx.2 _ i j
  · exact admits_entry hox.2 _ i j

end

/-! ## Intervals of variables -/

lemma quantity_of_index? {k : Nat} (h : o.index? name = some k) (x : String → Int) :
    quantity o.vars x (2 * k) = x name ∧ quantity o.vars x (2 * k + 1) = -x name := by
  obtain ⟨hlt, hget, -⟩ := idxOf?_eq_some_iff.1 h
  unfold quantity
  rw [if_pos (by omega), if_neg (by omega), show 2 * k / 2 = k by omega,
    show (2 * k + 1) / 2 = k by omega, getElem?_eq_getElem hlt, hget]
  exact ⟨rfl, rfl⟩

lemma Describes.bounds (ho : o.Square) (hx : o.Describes x) (name : String) :
    (o.bounds name).contains (x name) := by
  obtain ⟨hcf, hcx⟩ := (describes_close_iff ho).2 hx
  unfold Octagon.bounds
  rw [hx.1, if_neg (by simp)]
  split
  · exact Interval.contains_top
  next k hk =>
    have hk' : o.close.index? name = some k := by
      unfold index? at hk ⊢
      rw [vars_close]
      exact hk
    obtain ⟨hpos, hneg⟩ := quantity_of_index? hk' x
    have hlow := hcx (2 * k) (2 * k + 1)
    have hhigh := hcx (2 * k + 1) (2 * k)
    rw [hpos, hneg] at hlow hhigh
    dsimp only
    rw [hcf, if_neg (by simp), Interval.contains_between]
    constructor
    · cases hb : o.close.bound (2 * k) (2 * k + 1) with
      | none => exact Bound.negInf_le _
      | some a =>
        have := hlow a hb
        simp only [map_some, getD_some, Bound.finite_le_finite]
        omega
    · cases hb : o.close.bound (2 * k + 1) (2 * k) with
      | none => exact Bound.le_posInf _
      | some a =>
        have := hhigh a hb
        simp only [map_some, getD_some, Bound.finite_le_finite]
        omega

/-! ## Soundness -/

/-- The operations on octagons against what they describe.  Closing leaves it unchanged and marks an
octagon as infeasible only if it describes nothing; a smaller octagon describes less; a join and a
widening describe what either octagon does, a meet describes exactly what both do, and narrowing
keeps that; the interval of a variable has all its values. -/
theorem operations_describe (ho : o.Derived) (hp : p.Derived) :
    (∀ x, o.close.Describes x ↔ o.Describes x) ∧
    (o.infeasible = false → o.close.infeasible = true → ∀ x, ¬ o.Holds x) ∧
    (o.le p = true → ∀ x, o.Describes x → p.Describes x) ∧
    (∀ x, o.Describes x ∨ p.Describes x → (o.join p).Describes x) ∧
    (∀ x, o.Describes x ∨ p.Describes x → (o.widen p).Describes x) ∧
    (∀ x, (o.meet p).Describes x ↔ o.Describes x ∧ p.Describes x) ∧
    (∀ x, o.Describes x → p.Describes x → (o.narrow p).Describes x) ∧
    ∀ x, o.Describes x → ∀ name, (o.bounds name).contains (x name) = true := by
  have hos := ho.square
  have hps := hp.square
  refine ⟨fun x => describes_close_iff hos, fun hf hcf x hx => ?_, fun h x => .of_le hos hps h,
    fun x => .join hos hps, fun x => .widen hos hps, fun x => describes_meet_iff hos hps,
    fun x => .narrow hos hps, fun x hx => hx.bounds hos⟩
  rw [((describes_close_iff hos).2 ⟨hf, hx⟩).1] at hcf
  cases hcf

/-- A widened octagon, which is not closed, over one variable and a range of another variable. -/
theorem operations_describe_two_variables :
    ∃ x : String → Int, x "i" = 7 ∧ x "n" = 3 ∧
      (((top.setBounds "i" (.range 0 5)).widen (top.setBounds "i" (.range 0 6))).meet
        (top.setBounds "n" (.range 2 3))).Describes x ∧
      (((top.setBounds "i" (.range 0 5)).widen (top.setBounds "i" (.range 0 6))).bounds "i").contains
        (x "i") = true := by
  let x : String → Int := fun v => if v = "i" then 7 else 3
  have ho : ((top.setBounds "i" (.range 0 5)).widen (top.setBounds "i" (.range 0 6))).Derived :=
    .widen (.setBounds .top _ _) (.setBounds .top _ _)
  have hp : (top.setBounds "n" (.range 2 3)).Derived := .setBounds .top _ _
  have hox : ((top.setBounds "i" (.range 0 5)).widen (top.setBounds "i" (.range 0 6))).Describes
    x :=
    ⟨by decide +kernel, .of_respects ho.square (by decide +kernel)⟩
  have hpx : (top.setBounds "n" (.range 2 3)).Describes x :=
    ⟨by decide +kernel, .of_respects hp.square (by decide +kernel)⟩
  obtain ⟨-, -, -, -, -, hmeet, -, hbounds⟩ := operations_describe ho hp
  exact ⟨x, rfl, rfl, (hmeet x).2 ⟨hox, hpx⟩, hbounds x hox "i"⟩

end Octagon
end StaticAnalysis
