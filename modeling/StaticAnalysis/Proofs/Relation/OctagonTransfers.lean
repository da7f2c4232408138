import StaticAnalysis.Proofs.Relation.LinearForms
import StaticAnalysis.Proofs.Relation.TightOctagons

/-!
# Constraints and assignments in the matrix

What the operations that change a matrix do to the valuations it describes.  Tracking more variables
changes nothing, a new bound is met with what was described, and `x := x + c` moves what was
described, up to bounds that are given up because they are no words.  Dropping the bounds on a
variable frees it.
-/

namespace StaticAnalysis

open Ceiling LinearForm List Word Dbm.Square
open Option hiding or_assoc

lemma Word.ofInt?_eq_some {a c : Int} : ofInt? a = some c ↔ fits a ∧ a = c := by
  simp [ofInt?]

namespace Ceiling

variable {c : Ceiling} {d x : Int}

/-- A moved bound may be given up, but never excludes a moved value. -/
lemma Admits.shift (h : c.Admits (x - d)) : (c.shift d).Admits x := by
  intro b hb
  cases c with
  | none => cases hb
  | some a =>
    have hle := admits_some.1 h
    rw [Ceiling.shift, bind_some] at hb
    split at hb
    · cases hb
      omega
    · rw [← add?_eq_some hb]
      omega

def shiftFits (c : Ceiling) (d : Int) : Bool := d == 0 || c.all fun a => Word.fits (a + d)

lemma admits_shift_iff (hfits : c.shiftFits d) : (c.shift d).Admits x ↔ c.Admits (x - d) := by
  refine ⟨fun h => ?_, Admits.shift⟩
  rintro a rfl
  by_cases hd : d = 0
  · rw [Ceiling.shift, bind_some, if_pos hd, admits_some] at h
    omega
  · have hfits : fits (a + d) = true := by simpa [shiftFits, hd] using hfits
    rw [Ceiling.shift, bind_some, if_neg hd, Word.add?, ofInt?, if_pos hfits, admits_some] at h
    omega

end Ceiling

namespace Dbm

variable {n p q s : Nat} {m : Dbm} {V : Nat → Int} {c : Int}

lemma twin_lt (h : p < 2 * s) : twin p < 2 * s := by
  unfold twin
  split <;> omega

lemma holds_set_min_iff (hm : Square n m) (hp : p < n) (hq : q < n) :
    (m.set p q ((m.bound p q).min (some c))).Holds V ↔ m.Holds V ∧ V q - V p ≤ c := by
  constructor
  · intro h
    have hpq := h p q
    rw [bound_set hm hp hq, if_pos ⟨rfl, rfl⟩, admits_min_iff] at hpq
    refine ⟨fun i j => ?_, admits_some.1 hpq.2⟩
    have hij := h i j
    rw [bound_set hm hp hq] at hij
    split at hij
    next heq =>
      rw [heq.1, heq.2]
      exact hpq.1
    next => exact hij
  · rintro ⟨h, hc⟩ i j
    rw [bound_set hm hp hq]
    split
    next heq =>
      rw [heq.1, heq.2]
      exact admits_min (h p q) (admits_some.2 hc)
    next => exact h i j

lemma holds_constrain_iff (hm : Square (2 * s) m) (hp : p < 2 * s) (hq : q < 2 * s)
    (hV : ∀ i, V (twin i) = -V i) : (m.constrain p q c).Holds V ↔ m.Holds V ∧ V q - V p ≤ c := by
  unfold constrain
  dsimp only
  rw [holds_set_min_iff (square_set hm p q _) (twin_lt hq) (twin_lt hp), holds_set_min_iff hm hp hq,
    hV, hV]
  exact ⟨fun h => h.1, fun h => ⟨h, by omega⟩⟩

end Dbm

namespace Octagon

open Dbm (twin)

variable {o p : Octagon} {vars : SortedSet String} {x y : String → Int} {name : String}
  {i j k : Nat} {c : Int}

/-! ## Tracked variables -/

lemma index?_lt (h : o.index? name = some k) : k < o.vars.size :=
  (idxOf?_eq_some_iff.1 h).1

lemma getElem?_index? (h : o.index? name = some k) : o.vars.toList[k]? = some name := by
  obtain ⟨hlt, hget, -⟩ := idxOf?_eq_some_iff.1 h
  rw [getElem?_eq_getElem hlt, hget]

lemma exists_index? (h : name ∈ o.vars) : ∃ k, o.index? name = some k := by
  obtain ⟨k, hk, hget⟩ := mem_iff_getElem.1 h
  exact ⟨k, hget ▸ o.vars.idxOf?_getElem hk⟩

lemma index?_eq_none (h : o.index? name = none) : name ∉ o.vars := idxOf?_eq_none_iff.1 h

lemma div_two_eq_of_getElem? (h : o.index? name = some k) (hi : o.vars.toList[i / 2]? = some name) :
    i / 2 = k := by
  obtain ⟨hlt, hget⟩ := List.getElem?_eq_some_iff.1 hi
  obtain ⟨hlt', hget'⟩ := List.getElem?_eq_some_iff.1 (getElem?_index? h)
  exact (o.vars.nodup.getElem_inj_iff).1 (hget.trans hget'.symm)

lemma quantity_congr (h : ∀ v ∈ vars, x v = y v) (i : Nat) :
    quantity vars x i = quantity vars y i := by
  unfold quantity
  cases hget : vars.toList[i / 2]? with
  | none => rfl
  | some v =>
    rw [elim_some, elim_some, h v (mem_of_getElem? hget)]

lemma Describes.congr (h : ∀ v ∈ o.vars, x v = y v) (hx : o.Describes x) : o.Describes y := by
  refine ⟨hx.1, fun i j => ?_⟩
  rw [← quantity_congr h i, ← quantity_congr h j]
  exact hx.2 i j

lemma describes_update_iff (h : name ∉ o.vars) (t : Int) :
    o.Describes (Function.update x name t) ↔ o.Describes x := by
  have hsame : ∀ v ∈ o.vars, Function.update x name t v = x v := by
    intro v hv
    rw [Function.update_of_ne]
    rintro rfl
    exact h hv
  exact ⟨.congr hsame, .congr fun v hv => (hsame v hv).symm⟩

/-! ## More variables -/

lemma describes_reindex_entries : (o.reindex vars).Describes x ↔ o.infeasible = false ∧
    ∀ i j, i < 2 * vars.size → j < 2 * vars.size →
      (o.entry vars i j).Admits (quantity vars x j - quantity vars x i) := by
  have hbound : ∀ i j, (o.reindex vars).matrix.bound i j = _ := bound_reindex o vars
  refine and_congr_right fun _ => ⟨fun h i j hi hj => ?_, fun h i j => ?_⟩
  · have hij := h i j
    rwa [hbound, if_pos ⟨hi, hj⟩] at hij
  · rw [hbound]
    split
    next hij => exact h i j hij.1 hij.2
    next => exact admits_none _

lemma mem_vars_addVar {v : String} : v ∈ (o.addVar name).vars ↔ v = name ∨ v ∈ o.vars := by
  unfold addVar
  split
  next h =>
    refine ⟨.inr, ?_⟩
    rintro (rfl | hv)
    exacts [SortedSet.contains_iff.1 h, hv]
  next => exact SortedSet.mem_insert

lemma describes_addVar_iff (ho : o.Square) (name : String) :
    (o.addVar name).Describes x ↔ o.Describes x := by
  unfold addVar
  split
  · rfl
  · rw [describes_reindex_entries, ← holds_iff_entries ho fun v hv => SortedSet.mem_insert.2 (.inr hv)]
    rfl

lemma addVars_induct {P : Octagon → Prop} (hstep : ∀ o name, P o → P (o.addVar name))
    (names : List String) (ho : P o) : P (o.addVars names) := by
  unfold addVars
  induction names generalizing o with
  | nil => exact ho
  | cons name names ih => exact ih (hstep o name ho)

lemma mem_vars_addVars {v : String} (names : List String) :
    v ∈ (o.addVars names).vars ↔ v ∈ names ∨ v ∈ o.vars := by
  unfold addVars
  induction names generalizing o with
  | nil => simp
  | cons name names ih => rw [foldl_cons, ih, mem_vars_addVar, mem_cons, or_left_comm, or_assoc]

lemma describes_addVars_iff (ho : o.Square) (names : List String) :
    (o.addVars names).Describes x ↔ o.Describes x :=
  (addVars_induct (P := fun p => p.Square ∧ (p.Describes x ↔ o.Describes x))
    (fun _ name hp => ⟨hp.1.addVar name, (describes_addVar_iff hp.1 name).trans hp.2⟩) names
    ⟨ho, Iff.rfl⟩).2

/-! ## Constraints -/

@[simp] lemma vars_constrain (o : Octagon) (i j : Nat) (c : Int) :
    (o.constrain i j c).vars = o.vars := rfl

lemma describes_constrain_iff (ho : o.Square) (hi : i < 2 * o.vars.size)
    (hj : j < 2 * o.vars.size) : (o.constrain i j c).Describes x ↔
      o.Describes x ∧ quantity o.vars x j - quantity o.vars x i ≤ c := by
  have hiff := Dbm.holds_constrain_iff (c := c) ho hi hj (quantity_twin o.vars x)
  exact ⟨fun h => ⟨⟨h.1, (hiff.1 h.2).1⟩, (hiff.1 h.2).2⟩, fun h => ⟨h.1.1, hiff.2 ⟨h.1.2, h.2⟩⟩⟩

/-- Meet with a bound on `V j - V i` that may be missing, without closing. -/
def constrain? (o : Octagon) (i j : Nat) (c : Ceiling) : Octagon := c.elim o (o.constrain i j)

@[simp] lemma vars_constrain? (o : Octagon) (i j : Nat) (c : Ceiling) :
    (o.constrain? i j c).vars = o.vars := by cases c <;> rfl

lemma Square.constrain? (ho : o.Square) (i j : Nat) (c : Ceiling) :
    (o.constrain? i j c).Square := by
  cases c with
  | none => exact ho
  | some c => exact ho.constrain i j c

lemma describes_constrain?_iff {c : Ceiling} (ho : o.Square) (hi : i < 2 * o.vars.size)
    (hj : j < 2 * o.vars.size) : (o.constrain? i j c).Describes x ↔
      o.Describes x ∧ c.Admits (quantity o.vars x j - quantity o.vars x i) := by
  cases c with
  | none => exact ⟨fun h => ⟨h, admits_none _⟩, fun h => h.1⟩
  | some c =>
    rw [admits_some]
    exact describes_constrain_iff ho hi hj

lemma setBounds_eq {i : Interval} (he : i.isEmpty = false)
    (hk : (o.addVar name).index? name = some k) :
    o.setBounds name i = (((o.addVar name).constrain? (2 * k + 1) (2 * k)
      (i.high.toFinite?.bind (mul? · 2))).constrain? (2 * k) (2 * k + 1)
        (i.low.toFinite?.bind (mul? · (-2)))).close := by
  unfold setBounds
  rw [if_neg (by simp [he])]
  dsimp only
  rw [hk]
  dsimp only
  congr 1
  cases i.high.toFinite?.bind (mul? · 2) <;> cases i.low.toFinite?.bind (mul? · (-2)) <;> rfl

lemma describes_setBounds_iff (ho : o.Square) (name : String) (i : Interval) :
    (o.setBounds name i).Describes x ↔ o.Describes x ∧ i.isEmpty = false ∧
      Ceiling.Admits (i.high.toFinite?.bind (mul? · 2)) (2 * x name) ∧
      Ceiling.Admits (i.low.toFinite?.bind (mul? · (-2))) (-2 * x name) := by
  cases he : i.isEmpty with
  | true =>
    refine iff_of_false (fun h => ?_) fun h => Bool.noConfusion h.2.1
    rw [setBounds, if_pos he] at h
    exact Bool.noConfusion h.1
  | false =>
    obtain ⟨k, hk⟩ := exists_index? (o := o.addVar name) (mem_vars_addVar.2 (.inl rfl))
    have hlt := index?_lt hk
    have hs := ho.addVar name
    obtain ⟨hpos, hneg⟩ := quantity_of_index? hk x
    rw [setBounds_eq he hk, describes_close_iff ((hs.constrain? _ _ _).constrain? _ _ _),
      describes_constrain?_iff (hs.constrain? _ _ _) (by rw [vars_constrain?]; omega)
        (by rw [vars_constrain?]; omega),
      describes_constrain?_iff hs (by omega) (by omega), vars_constrain?, hpos, hneg,
      describes_addVar_iff ho, and_assoc]
    refine and_congr_right fun _ => ?_
    rw [show x name - -x name = 2 * x name by omega, show -x name - x name = -2 * x name by omega]
    simp

lemma Describes.setBounds {i : Interval} (ho : o.Square) (hx : o.Describes x)
    (hi : i.contains (x name)) : (o.setBounds name i).Describes x := by
  have hmem := Interval.contains_iff.1 hi
  refine (describes_setBounds_iff ho name i).2 ⟨hx, Interval.isEmpty_of_contains hi, fun c hc => ?_,
    fun c hc => ?_⟩
  · obtain ⟨h, hh, hc⟩ := Option.bind_eq_some_iff.1 hc
    rw [Bound.toFinite?_eq_some.1 hh, Bound.finite_le_finite] at hmem
    have := (ofInt?_eq_some.1 hc).2
    omega
  · obtain ⟨l, hl, hc⟩ := Option.bind_eq_some_iff.1 hc
    rw [Bound.toFinite?_eq_some.1 hl, Bound.finite_le_finite] at hmem
    have := (ofInt?_eq_some.1 hc).2
    omega

/-! ## Shifts -/

/-- How often the quantity number `i` has the variable number `k`. -/
def weight (k i : Nat) : Int := if i = 2 * k then 1 else if i = 2 * k + 1 then -1 else 0

section

variable (hk : o.index? name = some k)
include hk

lemma translate_eq (h : o.translate name c = .ok p) :
    p = { o with matrix := o.matrix.map fun i j e => e.shift ((weight k j - weight k i) * c) } := by
  unfold translate at h
  rw [hk] at h
  dsimp only at h
  split at h
  · obtain ⟨d, -, h⟩ := Fault.bind_eq_ok.1 h
    cases h
    rfl
  · cases h
    rfl

lemma quantity_moved (x : String → Int) (c : Int) (i : Nat) :
    quantity o.vars (Function.update x name (x name - c)) i =
    quantity o.vars x i - weight k i * c := by
  by_cases hi : o.vars.toList[i / 2]? = some name
  · have hik := div_two_eq_of_getElem? hk hi
    unfold quantity weight
    rw [hi, elim_some, elim_some, Function.update_self]
    by_cases hmod : i % 2 = 0
    · rw [if_pos hmod, if_pos hmod, if_pos (by omega)]
      omega
    · rw [if_neg hmod, if_neg hmod, if_neg (by omega), if_pos (by omega)]
      omega
  · have hweight : weight k i = 0 := by
      have hget := getElem?_index? hk
      unfold weight
      rw [if_neg, if_neg]
      · rintro rfl
        exact hi (by rwa [show (2 * k + 1) / 2 = k by omega])
      · rintro rfl
        exact hi (by rwa [show 2 * k / 2 = k by omega])
    rw [quantity_update hi, hweight]
    omega

lemma difference_moved (x : String → Int) (c : Int) (i j : Nat) :
    quantity o.vars (Function.update x name (x name - c)) j -
        quantity o.vars (Function.update x name (x name - c)) i =
      quantity o.vars x j - quantity o.vars x i - (weight k j - weight k i) * c := by
  rw [quantity_moved hk, quantity_moved hk]
  ring

end

lemma bound_translate (ho : o.Square) (hk : o.index? name = some k) (h : o.translate name c = .ok p)
    (i j : Nat) : p.matrix.bound i j = (o.bound i j).shift ((weight k j - weight k i) * c) := by
  have hmap := Dbm.bound_map ho (fun i j e => e.shift ((weight k j - weight k i) * c)) i j
  rw [translate_eq hk h]
  refine hmap.trans ?_
  split
  · rfl
  next hij =>
    unfold bound
    rw [bound_eq_none ho hij]
    rfl

def translateFits (o : Octagon) (name : String) (c : Int) : Bool :=
  (o.index? name).all fun k => (List.range o.matrix.dim).all fun i =>
    (List.range o.matrix.dim).all fun j =>
    (o.bound i j).shiftFits ((weight k j - weight k i) * c)

section Translate

variable (ho : o.Square) (hk : o.index? name = some k) (h : o.translate name c = .ok p)
include ho hk

lemma shiftFits_of_translateFits (hfits : o.translateFits name c) (i j : Nat) :
    (o.bound i j).shiftFits ((weight k j - weight k i) * c) := by
  by_cases hij : i < 2 * o.vars.size ∧ j < 2 * o.vars.size
  · unfold translateFits at hfits
    rw [hk, all_some, dim ho] at hfits
    have hrow := all_eq_true.1 hfits i (mem_range.2 hij.1)
    exact all_eq_true.1 hrow j (mem_range.2 hij.2)
  · unfold bound
    rw [bound_eq_none ho hij]
    simp [shiftFits]

include h

lemma describes_translate_entries : p.Describes x ↔ o.infeasible = false ∧
    ∀ i j, ((o.bound i j).shift ((weight k j - weight k i) * c)).Admits
      (quantity o.vars x j - quantity o.vars x i) := by
  have hvars : p.vars = o.vars := by rw [translate_eq hk h]
  have hf : p.infeasible = o.infeasible := by rw [translate_eq hk h]
  unfold Describes Holds Dbm.Holds
  rw [hf, hvars]
  simp only [bound_translate ho hk h]

lemma Describes.translate (hx : o.Describes (Function.update x name (x name - c))) :
    p.Describes x := by
  refine (describes_translate_entries ho hk h).2 ⟨hx.1, fun i j => Ceiling.Admits.shift ?_⟩
  rw [← difference_moved hk]
  exact hx.2 i j

lemma describes_translate_iff (hfits : o.translateFits name c) :
    p.Describes x ↔ o.Describes (Function.update x name (x name - c)) := by
  refine ⟨fun hx => ?_, .translate ho hk h⟩
  obtain ⟨hf, hx⟩ := (describes_translate_entries ho hk h).1 hx
  refine ⟨hf, fun i j => ?_⟩
  rw [difference_moved hk]
  exact (admits_shift_iff (shiftFits_of_translateFits ho hk hfits i j)).1 (hx i j)

end Translate

/-! ## Forgetting -/

lemma bound_forget (ho : o.Square) (hk : o.index? name = some k) (i j : Nat) :
    (o.forget name).bound i j =
      if (i / 2 = k ∨ j / 2 = k) ∧ i ≠ j then none else o.close.bound i j := by
  have hmap := Dbm.bound_map ho.close
    (fun i j c => if (i / 2 = k ∨ j / 2 = k) ∧ i ≠ j then none else c) i j
  unfold forget
  rw [hk]
  refine hmap.trans ?_
  split
  · rfl
  next hij =>
    unfold bound
    rw [bound_eq_none ho.close hij, ite_self]

lemma vars_forget (o : Octagon) (name : String) : (o.forget name).vars = o.vars := by
  unfold forget
  split
  · rfl
  · exact vars_close o

lemma infeasible_forget (hk : o.index? name = some k) :
    (o.forget name).infeasible = o.close.infeasible := by
  unfold forget
  rw [hk]

lemma Describes.forget (ho : o.Square) (hx : o.Describes x) (name : String) (t : Int) :
    (o.forget name).Describes (Function.update x name t) := by
  cases hk : o.index? name with
  | none =>
    unfold Octagon.forget
    rw [hk]
    exact (describes_update_iff (index?_eq_none hk) t).2 hx
  | some k =>
    obtain ⟨hf, hcx⟩ := (describes_close_iff ho).2 hx
    refine ⟨(infeasible_forget hk).trans hf, fun i j => ?_⟩
    have hbound : (o.forget name).matrix.bound i j = _ := bound_forget ho hk i j
    rw [hbound, vars_forget]
    split
    next => exact admits_none _
    next hij =>
      by_cases heq : i = j
      · -- Only the bound of a quantity against itself stays.
        subst heq
        have := hcx i i
        rwa [sub_self] at this ⊢
      · have hi : o.vars.toList[i / 2]? ≠ some name :=
          fun h => hij ⟨.inl (div_two_eq_of_getElem? hk h), heq⟩
        have hj : o.vars.toList[j / 2]? ≠ some name :=
          fun h => hij ⟨.inr (div_two_eq_of_getElem? hk h), heq⟩
        have := hcx i j
        rw [vars_close] at this
        rw [quantity_update hi, quantity_update hj]
        exact this

/-! ## Assignments -/

def tracking (o : Octagon) (name : String) (f : LinearForm) : Octagon :=
  (o.addVar name).addVars f.vars

variable {f : LinearForm}

lemma Square.tracking (ho : o.Square) (name : String) (f : LinearForm) :
    (o.tracking name f).Square :=
  (ho.addVar name).addVars f.vars

lemma describes_tracking_iff (ho : o.Square) (name : String) (f : LinearForm) :
    (o.tracking name f).Describes x ↔ o.Describes x :=
  (describes_addVars_iff (ho.addVar name) f.vars).trans (describes_addVar_iff ho name)

lemma exists_index?_tracking (o : Octagon) (name : String) (f : LinearForm) :
    ∃ k, (o.tracking name f).index? name = some k :=
  exists_index? ((mem_vars_addVars f.vars).2 (.inr (mem_vars_addVar.2 (.inl rfl))))

lemma index?_forget (o : Octagon) (name v : String) : (o.forget name).index? v = o.index? v := by
  unfold index?
  rw [vars_forget]

lemma unitTerm?_spec {v : String} {a : Int} {q : Nat} (h : o.unitTerm? v a = some q) :
    q < 2 * o.vars.size ∧ ∀ x, quantity o.vars x q = a * x v := by
  obtain ⟨l, hl, hq⟩ := Option.bind_eq_some_iff.1 h
  have hlt := index?_lt hl
  have hquantity := quantity_of_index? hl
  split at hq
  next ha =>
    cases hq
    exact ⟨by omega, fun x => by rw [(hquantity x).1, ha, one_mul]⟩
  next =>
    split at hq
    next ha =>
      cases hq
      exact ⟨by omega, fun x => by rw [(hquantity x).2, ha, neg_one_mul]⟩
    next => cases hq

lemma exists_unitTerm? {v : String} {a : Int} (hv : v ∈ o.vars) (ha : a = 1 ∨ a = -1) :
    ∃ q, o.unitTerm? v a = some q := by
  obtain ⟨l, hl⟩ := exists_index? hv
  unfold unitTerm?
  rw [hl, bind_some]
  rcases ha with rfl | rfl
  · exact ⟨_, if_pos rfl⟩
  · exact ⟨_, rfl⟩

end Octagon

/-- The forms whose assignment to a variable goes into the matrix: a constant, the variable itself
plus a constant, and another variable or its negation plus a constant. -/
inductive LinearForm.Octagonal (name : String) (f : LinearForm) : Prop
  | const (hself : f.coeff name = 0) (hrest : (f.drop name).support = [])
  | shift (hself : f.coeff name = 1) (hrest : (f.drop name).support = [])
  | other {v : String} {a : Int} (hself : f.coeff name = 0)
    (hrest : (f.drop name).support = [(v, a)]) (ha : a = 1 ∨ a = -1)

namespace Octagon

section Assign

variable {o p : Octagon} {x : String → Int} {name v : String} {f : LinearForm} {a : Int}

lemma isUnit_iff : isUnit a ↔ a = 1 ∨ a = -1 := by simp [isUnit]

variable (hf : o.infeasible = false)
include hf

lemma assign_const (hself : f.coeff name = 0) (hrest : (f.drop name).support = []) :
    o.assign name f =
      .ok (((o.tracking name f).forget name).setBounds name (.constant f.constant)) := by
  rw [support_drop] at hrest
  unfold assign
  rw [hf, hself, hrest]
  rfl

lemma assign_shift (hself : f.coeff name = 1) (hrest : (f.drop name).support = []) :
    o.assign name f = (o.tracking name f).translate name f.constant := by
  rw [support_drop] at hrest
  unfold assign
  rw [hf, hself, hrest]
  rfl

lemma assign_other (hself : f.coeff name = 0) (hrest : (f.drop name).support = [(v, a)])
    (ha : a = 1 ∨ a = -1) : ∃ k q, ((o.tracking name f).forget name).index? name = some k ∧
      ((o.tracking name f).forget name).unitTerm? v a = some q ∧
      o.assign name f = (Word.neg f.constant).map fun d =>
        ((((o.tracking name f).forget name).constrain q (2 * k) f.constant).constrain
          (2 * k) q d).close := by
  have hv : (v, a) ∈ (f.drop name).support := hrest ▸ mem_singleton_self _
  have hmem : v ∈ f.vars := mem_vars.2 ⟨a, (mem_terms_drop.1 (mem_terms_of_support hv)).1⟩
  obtain ⟨k, hk⟩ := exists_index?_tracking o name f
  obtain ⟨q, hq⟩ := exists_unitTerm? (o := (o.tracking name f).forget name) (v := v) (a := a)
    (by rw [vars_forget]; exact (mem_vars_addVars f.vars).2 (.inl hmem)) ha
  rw [← index?_forget _ name] at hk
  refine ⟨k, q, hk, hq, ?_⟩
  rw [support_drop] at hrest
  unfold assign
  rw [hf, hself, hrest]
  unfold tracking at hk hq ⊢
  simp only [Bool.false_eq_true, if_false, isUnit_iff.2 ha, if_true, hk, hq]
  cases Word.neg f.constant <;> rfl

lemma assign_general (h : ¬ f.Octagonal name) : o.assign name f =
    .ok (((o.tracking name f).forget name).setBounds name ((o.tracking name f).eval f)) := by
  have hrest := support_drop f name
  unfold assign
  rw [hf, ← hrest]
  dsimp only
  split
  next => cases ‹_›
  next =>
    split
    next hself hrest => exact absurd (.shift hself hrest) h
    next hself hrest => exact absurd (.const hself hrest) h
    next v a hself hrest =>
      split
      next ha => exact absurd (.other hself hrest (isUnit_iff.1 ha)) h
      next => rfl
    next => rfl

lemma describes_assign_other_iff (ho : o.Square) (hself : f.coeff name = 0)
    (hrest : (f.drop name).support = [(v, a)]) (ha : a = 1 ∨ a = -1) (h : o.assign name f = .ok p) :
    p.Describes x ↔ ((o.tracking name f).forget name).Describes x ∧ x name = f.value x := by
  obtain ⟨k, q, hk, hq, hassign⟩ := assign_other hf hself hrest ha
  rw [hassign] at h
  obtain ⟨d, hd, rfl⟩ := Fault.map_eq_ok.1 h
  obtain rfl : -f.constant = d := (exact_eq_ok.1 hd).2
  have hs := (ho.tracking name f).forget name
  have hlt := index?_lt hk
  obtain ⟨hqlt, hquantity⟩ := unitTerm?_spec hq
  have hvalue : f.value x = a * x v + f.constant := by
    rw [value_of_support_drop hrest, hself]
    simp [sumTerms]
  rw [describes_close_iff ((hs.constrain _ _ _).constrain _ _ _),
    describes_constrain_iff (hs.constrain _ _ _) (by rw [vars_constrain]; omega) hqlt,
    describes_constrain_iff hs hqlt (by omega), vars_constrain, hquantity,
      (quantity_of_index? hk x).1,
    hvalue, and_assoc]
  refine and_congr_right fun _ => ?_
  omega

lemma Describes.assign_octagonal (ho : o.Square) (hform : f.Octagonal name)
    (h : o.assign name f = .ok p)
    (hx : o.Describes x) : p.Describes (Function.update x name (f.value x)) := by
  have hs := ho.tracking name f
  rw [← describes_tracking_iff ho name f] at hx
  cases hform with
  | const hself hrest =>
    rw [assign_const hf hself hrest] at h
    cases h
    refine (hx.forget hs name _).setBounds (hs.forget name) ?_
    rw [Function.update_self, Interval.contains_constant, value_of_support_drop hrest, hself]
    simp [sumTerms]
  | shift hself hrest =>
    rw [assign_shift hf hself hrest] at h
    obtain ⟨k, hk⟩ := exists_index?_tracking o name f
    have hvalue : f.value x - f.constant = x name := by
      rw [value_of_support_drop hrest, hself]
      simp [sumTerms]
    refine .translate hs hk h ?_
    rwa [Function.update_self, hvalue, Function.update_idem, Function.update_eq_self]
  | other hself hrest ha =>
    refine (describes_assign_other_iff hf ho hself hrest ha h).2 ⟨hx.forget hs name _, ?_⟩
    rw [Function.update_self, value_update hself]

end Assign

end Octagon
end StaticAnalysis
