import StaticAnalysis.Proofs.Relation.OctagonTransfers

/-!
# Exact projections and assignments

Once an octagon is closed, a valuation of all but one of its variables that respects the bounds
between them extends to an integer valuation of all (`Closed.exists_update`), as tight matrices have
enough integer points.  So dropping the bounds on a variable describes exactly the valuations that
some value of the variable completes.  Assignments of a constant or of another variable forget first
and then add bounds, and `x := x + c` moves every bound whether or not the matrix is closed.
-/

namespace StaticAnalysis

open Dbm Finset LinearForm SortedSet

namespace Octagon

open Dbm (twin)

variable {o p : Octagon} {vars : SortedSet String} {x : String → Int} {name : String}
  {f : LinearForm} {i j k : Nat}

/-! ## Coherence over more variables -/

lemma place_twin (o : Octagon) (vars : SortedSet String) (i : Nat) :
    o.place vars (twin i) = (o.place vars i).map twin := by
  unfold place
  rw [twin_div_two, Option.map_map]
  congr 1
  funext k
  unfold twin
  dsimp only [Function.comp]
  split <;> split <;> omega

section

variable (ho : o.Coherent)
include ho

lemma entry_twin (i j : Nat) : o.entry vars (twin j) (twin i) = o.entry vars i j := by
  unfold entry
  rw [place_twin, place_twin]
  cases hi : o.place vars i with
  | none =>
    cases hj : o.place vars j <;>
      exact if_congr (by rw [twin_eq_iff, twin_twin, eq_comm]) rfl rfl
  | some i' =>
    cases hj : o.place vars j with
    | none => exact if_congr (by rw [twin_eq_iff, twin_twin, eq_comm]) rfl rfl
    | some j' => exact ho.mirrored i' j'

lemma Coherent.reindex (vars : SortedSet String) : (o.reindex vars).Coherent := by
  have hbound : ∀ i j, (o.reindex vars).matrix.bound i j = _ := bound_reindex o vars
  refine ⟨square_reindex o vars, fun i hi => ?_, fun i j => ?_⟩
  · have hi : i < 2 * vars.size := hi
    rw [hbound, if_pos ⟨hi, hi⟩]
    unfold entry
    cases hplace : o.place vars i with
    | none => exact if_pos rfl
    | some i' => exact ho.diagonal i' (place_lt hplace hi)
  · rw [hbound, hbound, entry_twin ho]
    refine if_congr ⟨fun h => ?_, fun h => ⟨twin_lt h.2, twin_lt h.1⟩⟩ rfl rfl
    have := And.intro (twin_lt h.2) (twin_lt h.1)
    rwa [twin_twin, twin_twin] at this

lemma Coherent.addVar (name : String) : (o.addVar name).Coherent := by
  unfold Octagon.addVar
  split
  · exact ho
  · exact ho.reindex _

lemma Coherent.tracking (name : String) (f : LinearForm) : (o.tracking name f).Coherent :=
  addVars_induct (fun _ v hp => hp.addVar v) f.vars (ho.addVar name)

/-! ## Projections -/

end

/-- A valuation that respects the bounds between the other variables respects all bounds once a
variable has the right value. -/
lemma Closed.exists_update (ho : o.Closed) (hk : o.index? name = some k)
    (hx : ∀ i j, i / 2 ≠ k → j / 2 ≠ k →
      (o.bound i j).Admits (quantity o.vars x j - quantity o.vars x i)) :
    ∃ t, o.Describes (Function.update x name t) := by
  -- The values of the other variables, by number.
  let v : Nat → Int := fun n => (o.vars.toList[n]?).elim 0 x
  have hv : o.matrix.HoldsOn ((Finset.range o.vars.size).erase k) v := by
    intro i j c hi hj hc
    obtain ⟨a, ha, hac⟩ := Dbm.within_iff.1 hc
    exact (hx i j (ne_of_mem_erase hi) (ne_of_mem_erase hj) a ha).trans hac
  obtain ⟨w, hw, hsame⟩ := ho.tight.exists_completion hv
  refine ⟨w k, ho.feasible, holds_of_within fun i j c hc => ?_⟩
  have hquantity : ∀ i, i < 2 * o.vars.size →
      quantity o.vars (Function.update x name (w k)) i = signed w i := by
    intro i hi
    by_cases hget : o.vars.toList[i / 2]? = some name
    · unfold quantity signed
      rw [hget, div_two_eq_of_getElem? hk hget, Option.elim_some, Function.update_self]
    · have hne : i / 2 ≠ k := by
        rintro rfl
        exact hget (getElem?_index? hk)
      rw [quantity_update hget]
      exact (hsame i (Finset.mem_erase.2 ⟨hne, mem_range.2 (by omega)⟩)).symm
  obtain ⟨hi, hj⟩ := hc.lt ho.square
  rw [hquantity i hi, hquantity j hj]
  exact hw.sub_le hc

/-- The sums formed when a variable is projected out are words. -/
def ForgetFits (o : Octagon) (name : String) : Prop :=
  o.infeasible = false → name ∈ o.vars → o.matrix.sumsFit = true

lemma index?_close (o : Octagon) (name : String) : o.close.index? name = o.index? name := by
  unfold index?
  rw [vars_close]

lemma describes_forget_iff (ho : o.Coherent) (hfits : o.ForgetFits name) :
    (o.forget name).Describes x ↔ ∃ t, o.Describes (Function.update x name t) := by
  constructor
  · intro hx
    cases hk : o.index? name with
    | none =>
      unfold forget at hx
      rw [hk] at hx
      exact ⟨0, (describes_update_iff (index?_eq_none hk) 0).2 hx⟩
    | some k =>
      have hf : o.close.infeasible = false := (infeasible_forget hk).symm.trans hx.1
      have hname := List.mem_of_getElem? (getElem?_index? hk)
      have hclosed := closed_close ho (hfits (infeasible_of_close hf) hname) hf
      obtain ⟨t, ht⟩ := hclosed.exists_update ((index?_close o name).trans hk) fun i j hi hj => by
        have hij := hx.2 i j
        have hbound : (o.forget name).matrix.bound i j = _ := bound_forget ho.square hk i j
        rw [hbound, if_neg fun h => h.1.elim hi hj, vars_forget] at hij
        rw [vars_close]
        exact hij
      exact ⟨t, (describes_close_iff ho.square).1 ht⟩
  · rintro ⟨t, ht⟩
    have := ht.forget ho.square name (x name)
    rwa [Function.update_idem, Function.update_eq_self] at this

lemma admits_of_reindex_erase (ho : o.Square) (hk : o.index? name = some k)
    (hx : (o.reindex (o.vars.erase name)).Describes x) (hi : i / 2 ≠ k) (hj : j / 2 ≠ k) :
    (o.bound i j).Admits (quantity o.vars x j - quantity o.vars x i) := by
  have hplace : ∀ i, i / 2 ≠ k → i < 2 * o.vars.size →
      ∃ l < 2 * (o.vars.erase name).size, o.place (o.vars.erase name) l = some i := by
    intro i hi hlt
    have hget := List.getElem?_eq_getElem (div_two_lt_length hlt)
    refine exists_place_of_mem hget (SortedSet.mem_erase.2 ⟨List.getElem_mem _, fun hname => ?_⟩)
    exact hi (div_two_eq_of_getElem? hk (hname ▸ hget))
  intro c hc
  obtain ⟨hilt, hjlt⟩ := Dbm.Square.lt_of_bound ho hc
  obtain ⟨i', hi', hplacei⟩ := hplace i hi hilt
  obtain ⟨j', hj', hplacej⟩ := hplace j hj hjlt
  have hentry := (describes_reindex_entries.1 hx).2 i' j' hi' hj'
  unfold entry at hentry
  rw [hplacei, hplacej, ← quantity_place hplacei, ← quantity_place hplacej] at hentry
  exact hentry c hc

lemma describes_removeVar_iff (ho : o.Coherent) (hfits : o.ForgetFits name) :
    (o.removeVar name).Describes x ↔ ∃ t, o.Describes (Function.update x name t) := by
  unfold removeVar
  split
  next h =>
    have hmem : name ∈ o.vars := contains_iff.1 h
    obtain ⟨k, hk⟩ := exists_index? hmem
    rw [← index?_close] at hk
    rw [← vars_close o]
    constructor
    · intro hx
      have hf : o.close.infeasible = false := hx.1
      have hclosed := closed_close ho (hfits (infeasible_of_close hf) hmem) hf
      obtain ⟨t, ht⟩ := hclosed.exists_update hk fun i j =>
        admits_of_reindex_erase hclosed.square hk hx
      exact ⟨t, (describes_close_iff ho.square).1 ht⟩
    · rintro ⟨t, ht⟩
      obtain ⟨hf, hx⟩ := (describes_close_iff ho.square).2 ht
      refine describes_reindex_entries.2 ⟨hf, fun i j _ _ => ?_⟩
      have hsame : ∀ v ∈ o.close.vars.erase name, Function.update x name t v = x v :=
        fun v hv => Function.update_of_ne (SortedSet.mem_erase.1 hv).2 _ _
      rw [← quantity_congr hsame i, ← quantity_congr hsame j]
      exact admits_entry hx _ i j
  next h =>
    have hmem : name ∉ o.vars := fun hmem => h (contains_iff.2 hmem)
    simp only [describes_update_iff hmem, exists_const]

lemma mem_vars_removeVar {v : String} : v ∈ (o.removeVar name).vars ↔ v ∈ o.vars ∧ v ≠ name := by
  unfold removeVar
  split
  · exact SortedSet.mem_erase
  next h =>
    refine ⟨fun hv => ⟨hv, ?_⟩, fun hv => hv.1⟩
    rintro rfl
    exact h (contains_iff.2 hv)

variable {P : (String → Int) → Prop}

lemma exists_update_iff :
    (∃ t, P (Function.update x name t)) ↔ ∃ y, P y ∧ ∀ v, v ≠ name → x v = y v := by
  constructor
  · rintro ⟨t, ht⟩
    exact ⟨_, ht, fun v hv => (Function.update_of_ne hv _ _).symm⟩
  · rintro ⟨y, hy, hsame⟩
    refine ⟨y name, ?_⟩
    convert hy
    funext v
    by_cases hv : v = name
    · rw [hv, Function.update_self]
    · rw [Function.update_of_ne hv, hsame v hv]

/-! ## Assignments -/

/-- The sums, doubles and moved bounds formed by an assignment are words. -/
def AssignFits (o : Octagon) (name : String) (f : LinearForm) : Prop :=
  o.infeasible = false →
    if f.coeff name = 1 then (o.tracking name f).translateFits name f.constant = true
    else (o.tracking name f).matrix.sumsFit = true ∧
      ((f.drop name).support = [] → Word.fits (2 * f.constant) = true ∧
      Word.fits (-2 * f.constant) = true)

lemma exists_assigned_iff (hself : f.coeff name = 0) :
    ((∃ t, P (Function.update x name t)) ∧ x name = f.value x) ↔
      ∃ y, P y ∧ x = Function.update y name (f.value y) := by
  constructor
  · rintro ⟨⟨t, ht⟩, hx⟩
    refine ⟨_, ht, ?_⟩
    rw [value_update hself, Function.update_idem, ← hx, Function.update_eq_self]
  · rintro ⟨y, hy, rfl⟩
    refine ⟨⟨y name, ?_⟩, ?_⟩
    · rwa [Function.update_idem, Function.update_eq_self]
    · rw [value_update hself, Function.update_self]

lemma describes_setBounds_constant_iff {c : Int} (ho : o.Square) (hpos : Word.fits (2 * c))
    (hneg : Word.fits (-2 * c)) :
    (o.setBounds name (.constant c)).Describes x ↔ o.Describes x ∧ x name = c := by
  constructor
  · intro hx
    rw [Interval.constant_eq] at hx
    obtain ⟨hx, -, hhigh, hlow⟩ := (describes_setBounds_iff ho name _).1 hx
    have hhigh := hhigh (c * 2) (Word.ofInt?_eq_some.2 ⟨by rwa [Int.mul_comm], rfl⟩)
    have hlow := hlow (c * -2) (Word.ofInt?_eq_some.2 ⟨by rwa [Int.mul_comm], rfl⟩)
    exact ⟨hx, by omega⟩
  · rintro ⟨hx, hc⟩
    exact hx.setBounds ho (Interval.contains_constant.2 hc)

lemma describes_assign_iff (ho : o.Coherent) (hform : f.Octagonal name)
    (hfits : o.AssignFits name f) (h : o.assign name f = .ok p) :
    p.Describes x ↔ ∃ y, o.Describes y ∧ x = Function.update y name (f.value y) := by
  cases hf : o.infeasible with
  | true =>
    unfold assign at h
    rw [hf] at h
    cases h
    refine iff_of_false (fun hx => by simp [hx.1] at hf) ?_
    rintro ⟨y, hy, -⟩
    simp [hy.1] at hf
  | false =>
    have hs := Square.tracking ho.square name f
    have hfits := hfits hf
    simp only [← describes_tracking_iff ho.square name f]
    cases hform with
    | const hself hrest =>
      rw [hself, if_neg (by decide)] at hfits
      obtain ⟨hpos, hneg⟩ := hfits.2 hrest
      rw [assign_const hf hself hrest] at h
      cases h
      have hvalue : f.value x = f.constant := by
        rw [value_of_support_drop hrest, hself]
        simp [sumTerms]
      rw [describes_setBounds_constant_iff (hs.forget name) hpos hneg,
        describes_forget_iff (ho.tracking name f) fun _ _ => hfits.1, ← hvalue]
      exact exists_assigned_iff hself
    | shift hself hrest =>
      rw [hself, if_pos rfl] at hfits
      rw [assign_shift hf hself hrest] at h
      obtain ⟨k, hk⟩ := exists_index?_tracking o name f
      rw [describes_translate_iff hs hk h hfits]
      have hvalue : ∀ y, f.value y = y name + f.constant := by
        intro y
        rw [value_of_support_drop hrest, hself]
        simp [sumTerms]
      simp only [hvalue]
      constructor
      · intro hx
        refine ⟨_, hx, ?_⟩
        rw [Function.update_self, Function.update_idem, Int.sub_add_cancel, Function.update_eq_self]
      · rintro ⟨y, hy, rfl⟩
        rwa [Function.update_self, Int.add_sub_cancel, Function.update_idem, Function.update_eq_self]
    | other hself hrest ha =>
      rw [hself, if_neg (by decide)] at hfits
      rw [describes_assign_other_iff hf ho.square hself hrest ha h,
        describes_forget_iff (ho.tracking name f) fun _ _ => hfits.1]
      exact exists_assigned_iff hself

/-- Projections and assignments of a coherent octagon, closed or not, as long as no sum is left out.
Forgetting and removing a variable describe exactly the valuations that agree elsewhere with one of
the octagon, and a removed variable is no longer tracked; an assignment of a constant, of the
variable itself or of another one or its negation, plus a constant, describes exactly the valuations
in which the variable has the value of the form. -/
theorem projections_assignments_exact (ho : o.Coherent) (name : String) :
    (o.ForgetFits name → ∀ x,
      (o.forget name).Describes x ↔ ∃ y, o.Describes y ∧ ∀ v, v ≠ name → x v = y v) ∧
    (o.forget name).vars = o.vars ∧
    (o.ForgetFits name → ∀ x,
      (o.removeVar name).Describes x ↔ ∃ y, o.Describes y ∧ ∀ v, v ≠ name → x v = y v) ∧
    (∀ v, v ∈ (o.removeVar name).vars ↔ v ∈ o.vars ∧ v ≠ name) ∧
    ∀ f p, f.Octagonal name → o.AssignFits name f → o.assign name f = .ok p →
      ∀ x, p.Describes x ↔ ∃ y, o.Describes y ∧ x = Function.update y name (f.value y) :=
  ⟨fun hfits _ => (describes_forget_iff ho hfits).trans exists_update_iff, vars_forget o name,
    fun hfits _ => (describes_removeVar_iff ho hfits).trans exists_update_iff,
    fun _ => mem_vars_removeVar, fun _ _ hform hfits h _ => describes_assign_iff ho hform hfits h⟩

lemma describes_belowThree_iff : belowThree.Describes x ↔ x "a" ≤ x "b" ∧ x "a" + x "b" ≤ 3 := by
  have hs := square_unconstrained (.ofList ["a", "b"])
  have htop : (unconstrained (.ofList ["a", "b"])).Describes x := by
    refine ⟨rfl, fun i j c hc => ?_⟩
    rw [unconstrained, Dbm.unconstrained, bound_ofFn] at hc
    split at hc
    · split at hc
      next hij =>
        cases hc
        rw [hij, sub_self]
      next => cases hc
    · cases hc
  unfold belowThree
  rw [describes_constrain_iff (hs.constrain _ _ _) (by decide) (by decide),
    describes_constrain_iff hs (by decide) (by decide), and_iff_right htop]
  change x "a" - x "b" ≤ 0 ∧ x "a" - -x "b" ≤ 3 ↔ _
  omega

/-- From `a ≤ b` and `a + b ≤ 3`, which are not closed: without `b` the bound `a ≤ 1` stays, and
`a := 4 - b` leaves nothing but itself. -/
theorem projections_assignments_exact_belowThree :
    (∀ x, (belowThree.forget "b").Describes x ↔ x "a" ≤ 1) ∧
    (∀ x, (belowThree.removeVar "b").Describes x ↔ x "a" ≤ 1) ∧
    ∃ p, belowThree.assign "a" ⟨.singleton "b" (-1), 4⟩ = .ok p ∧
      ∀ x, p.Describes x ↔ x "a" = 4 - x "b" := by
  have ho : belowThree.Coherent :=
    .constrain (.constrain (Dbm.coherent_unconstrained 2) (by decide) (by decide) (by decide) 0)
      (by decide) (by decide) (by decide) 3
  obtain ⟨hforget, -, hremove, -, -⟩ := projections_assignments_exact ho "b"
  obtain ⟨-, -, -, -, hassign⟩ := projections_assignments_exact ho "a"
  have hb : ∀ x : String → Int, (∃ y, belowThree.Describes y ∧ ∀ v, v ≠ "b" → x v = y v) ↔
      x "a" ≤ 1 := by
    intro x
    rw [← exists_update_iff]
    simp only [describes_belowThree_iff, Function.update_self,
      Function.update_of_ne (show "a" ≠ "b" by decide)]
    constructor
    · rintro ⟨t, h⟩
      omega
    · exact fun h => ⟨1, by omega⟩
  refine ⟨fun x => (hforget (fun _ _ => by decide +kernel) x).trans (hb x),
    fun x => (hremove (fun _ _ => by decide +kernel) x).trans (hb x), ?_⟩
  have hok : (belowThree.assign "a" ⟨.singleton "b" (-1), 4⟩).isOk = true := by decide +kernel
  cases hp : belowThree.assign "a" ⟨.singleton "b" (-1), 4⟩ with
  | error e =>
    rw [hp] at hok
    cases hok
  | ok p =>
    refine ⟨p, rfl, fun x => ?_⟩
    rw [hassign _ _ (.other (v := "b") (a := -1) (by decide) (by decide) (.inr rfl))
      (fun _ => by decide +kernel) hp, ← exists_assigned_iff (by decide)]
    simp only [describes_belowThree_iff, Function.update_self,
      Function.update_of_ne (show "b" ≠ "a" by decide)]
    change _ ∧ x "a" = 4 + (-1 * x "b" + 0) ↔ _
    constructor
    · rintro ⟨-, hx⟩
      omega
    · intro hx
      exact ⟨⟨min (x "b") (3 - x "b"), by omega⟩, by omega⟩

end Octagon
end StaticAnalysis
