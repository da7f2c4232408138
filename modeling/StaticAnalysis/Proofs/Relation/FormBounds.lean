import StaticAnalysis.Proofs.Relation.Linearization
import StaticAnalysis.Proofs.Relation.OctagonTransfers

/-!
# Bounds of linear forms

The interval of a linear form is made term by term, with arithmetic that stays at the ends of the
word range.  It has the value that the form takes in the same arithmetic (`saturated`), which is the
exact value if the absolute values of the terms add up to a word, and may be another one if a
partial sum leaves the range.  Only octagons read sums and differences of two variables off their
matrix.

Guards bound each term by the others.  That is right for every valuation in which the terms are
words and the rest of the form, without one variable after the other, has the exact value.
-/

namespace StaticAnalysis

open StaticAnalysis.Bound Fault StaticAnalysis.Interval LinearForm List Option Word

namespace LinearForm

variable {f g : LinearForm} {x : String → Int} {v : String} {a : Int}

/-- The interval of a form, from intervals of its variables. -/
def interval (bounds : String → Interval) (f : LinearForm) : Interval :=
  f.terms.foldl (fun i t => i.add ((bounds t.1).mul (.constant t.2))) (.constant f.constant)

/-- The value of a form if sums and products stay in the word range. -/
def saturated (f : LinearForm) (x : String → Int) : Int :=
  f.terms.foldl (fun s t => Word.satAdd s (Word.satMul (x t.1) t.2)) f.constant

lemma contains_interval {bounds : String → Interval} (h : ∀ v, (bounds v).contains (x v)) :
    (f.interval bounds).contains (f.saturated x) := by
  have hrun : ∀ (terms : List (String × Int)) (i : Interval) (s : Int), i.contains s = true →
      (terms.foldl (fun i t => i.add ((bounds t.1).mul (.constant t.2))) i).contains
        (terms.foldl (fun s t => satAdd s (satMul (x t.1) t.2)) s) = true := by
    intro terms
    induction terms with
    | nil => exact fun i s hs => hs
    | cons t terms ih =>
      intro i s hs
      exact ih _ _ (contains_satAdd hs (contains_satMul (h t.1) (contains_constant.2 rfl)))
  exact hrun f.terms _ _ (contains_constant.2 rfl)

lemma contains_mulPreimage_drop {low : Int} (hmem : (v, a) ∈ f.terms) (hle : f.value x ≤ 0)
    (hlow : low ≤ (f.drop v).value x) (hterm : fits (x v * a)) (hv : fits (x v)) :
    ((atMost (satNeg low)).mulPreimage a).contains (x v) := by
  by_cases ha : a = 0
  · have htop : (atMost (satNeg low)).mulPreimage a = .top := by
      rw [mulPreimage, if_pos (by simp [ha])]
    rw [htop]
    exact contains_top
  · refine contains_mulPreimage ha (contains_atMost.2 ?_) hv
    have hsplit := value_drop f v x
    rw [coeff_of_mem hmem, Int.mul_comm] at hsplit
    rw [← clamp_of_fits hterm]
    exact clamp_mono (by omega)

/-! ## Exact evaluation -/

/-- A sum or difference of two variables, up to a constant. -/
def IsPair (f : LinearForm) : Prop :=
  ∃ v a w b, f.support = [(v, a), (w, b)] ∧ (a = 1 ∨ a = -1) ∧ (b = 1 ∨ b = -1)

/-- At most two variables, with coefficients `1` or `-1`. -/
def IsSmall (f : LinearForm) : Prop :=
  f.support = [] ∨ (∃ v a, f.support = [(v, a)] ∧ (a = 1 ∨ a = -1)) ∨ f.IsPair

/-- The form is evaluated exactly: term by term, or as a pair where there is a matrix. -/
def Exact (matrix : Bool) (f : LinearForm) (x : String → Int) : Prop :=
  (matrix = true ∧ f.IsPair) ∨ f.saturated x = f.value x

/-- The form goes into the matrix, or its terms are words and it is evaluated exactly without any of
them; where there is no matrix the whole form is evaluated as well. -/
def GuardExact (matrix : Bool) (f : LinearForm) (x : String → Int) : Prop :=
  (matrix = true ∧ f.IsSmall) ∨ ((matrix = false → f.Exact matrix x) ∧
    ∀ t ∈ f.terms, Word.fits (x t.1 * t.2) = true ∧ (f.drop t.1).Exact matrix x)

/-! ## Magnitudes -/

def sumAbs (x : String → Int) : List (String × Int) → Nat
  | [] => 0
  | t :: terms => (x t.1 * t.2).natAbs + sumAbs x terms

/-- The absolute values of the constant and the terms, added up. -/
def magnitude (f : LinearForm) (x : String → Int) : Nat := f.constant.natAbs + sumAbs x f.terms

lemma natAbs_le_sumAbs {terms : List (String × Int)} {t : String × Int} (ht : t ∈ terms) :
    (x t.1 * t.2).natAbs ≤ sumAbs x terms := by
  induction terms with
  | nil => exact absurd ht not_mem_nil
  | cons u terms ih =>
    rw [sumAbs]
    rcases mem_cons.1 ht with rfl | ht
    · omega
    · have := ih ht
      omega

lemma sumAbs_filter_le (p : String × Int → Bool) (terms : List (String × Int)) :
    sumAbs x (terms.filter p) ≤ sumAbs x terms := by
  induction terms with
  | nil => exact Nat.le_refl _
  | cons t terms ih =>
    rw [filter_cons]
    split <;> simp only [sumAbs] <;> omega

lemma sumAbs_map_neg (terms : List (String × Int)) :
    sumAbs x (terms.map fun t => (t.1, t.2 * -1)) = sumAbs x terms := by
  induction terms with
  | nil => rfl
  | cons t terms ih => rw [map_cons, sumAbs, sumAbs, ih, ← Int.mul_assoc, Int.mul_neg_one,
    Int.natAbs_neg]

lemma magnitude_drop_le (f : LinearForm) (v : String) (x : String → Int) :
    (f.drop v).magnitude x ≤ f.magnitude x := by
  rw [magnitude, magnitude, terms_drop]
  exact Nat.add_le_add_left (sumAbs_filter_le _ f.terms) _

lemma magnitude_neg (h : f.neg = .ok g) (x : String → Int) : g.magnitude x = f.magnitude x := by
  rw [magnitude, magnitude, terms_neg h, sumAbs_map_neg, (neg_eq_ok.1 h).2, Int.natAbs_neg]

lemma fits_of_natAbs_le {y : Int} {n : Nat} (hy : y.natAbs ≤ n) (hn : (n : Int) ≤ greatest) :
    fits y := by
  rw [fits_iff]
  unfold least greatest at *
  omega

section

variable (h : (f.magnitude x : Int) ≤ greatest)
include h

lemma saturated_eq : f.saturated x = f.value x := by
  have hrun : ∀ (terms : List (String × Int)) (s : Int),
      ((s.natAbs + sumAbs x terms : Nat) : Int) ≤ greatest →
      terms.foldl (fun s t => satAdd s (satMul (x t.1) t.2)) s = s + sumTerms x terms := by
    intro terms
    induction terms with
    | nil => exact fun s _ => (Int.add_zero s).symm
    | cons t terms ih =>
      intro s hs
      rw [sumAbs] at hs
      have hle := Int.natAbs_add_le s (x t.1 * t.2)
      have hstep : satAdd s (satMul (x t.1) t.2) = s + x t.1 * t.2 := by
        rw [satMul, clamp_of_fits (fits_of_natAbs_le (by omega) hs), satAdd,
          clamp_of_fits (fits_of_natAbs_le (by omega) hs)]
      rw [foldl_cons, hstep, ih _ (by omega), sumTerms]
      ring
  exact hrun f.terms f.constant h

lemma exact_of_magnitude (matrix : Bool) : f.Exact matrix x :=
  .inr (saturated_eq h)

lemma guardExact_of_magnitude (matrix : Bool) : f.GuardExact matrix x := by
  refine .inr ⟨fun _ => exact_of_magnitude h matrix, fun t ht => ⟨?_, ?_⟩⟩
  · have := natAbs_le_sumAbs (x := x) ht
    exact fits_of_natAbs_le (Nat.le_trans this (Nat.le_add_left _ _)) h
  · have := magnitude_drop_le f t.1 x
    exact exact_of_magnitude (by omega) matrix

end

end LinearForm

/-- What a guard evaluates is evaluated exactly. -/
def LinearConstraint.Exact (matrix : Bool) (c : LinearConstraint) (x : String → Int) : Prop :=
  match c.relation with
  | .le => c.form.GuardExact matrix x
  | .eq => c.form.GuardExact matrix x ∧ ∀ g, c.form.neg = .ok g → g.GuardExact matrix x
  | .ne => c.form.Exact matrix x

lemma LinearConstraint.exact_of_magnitude {c : LinearConstraint} {x : String → Int}
    (h : (c.form.magnitude x : Int) ≤ greatest) (matrix : Bool) : c.Exact matrix x := by
  unfold LinearConstraint.Exact
  split
  · exact guardExact_of_magnitude h matrix
  · refine ⟨guardExact_of_magnitude h matrix, fun g hg => ?_⟩
    rw [← magnitude_neg hg] at h
    exact guardExact_of_magnitude h matrix
  · exact LinearForm.exact_of_magnitude h matrix

/-! ## Boxes -/

namespace Boxes

variable {b c : Boxes} {x : String → Int} {f : LinearForm} {name : String} {i : Interval}

/-- Every variable is in its interval. -/
def Describes (b : Boxes) (x : String → Int) : Prop :=
  b.infeasible = false ∧ ∀ v, (b.bounds v).contains (x v) = true

lemma bounds_eq (hb : b.infeasible = false) (v : String) :
    b.bounds v = (b.intervals.get? v).getD .top := by
  rw [bounds, hb, if_neg (by decide), SortedMap.getD_eq]

section

variable (hx : b.Describes x)
include hx

lemma Describes.set {n : Int} (hi : i.contains n) :
    (b.set name i).Describes (Function.update x name n) := by
  have hset := get?_set (b := b) (v := name) (isEmpty_of_contains hi)
  have hf : (b.set name i).infeasible = false := (hset name).1.trans hx.1
  refine ⟨hf, fun w => ?_⟩
  rw [bounds_eq hf, (hset w).2]
  by_cases hw : w = name
  · rw [if_pos hw, hw, Function.update_self]
    split
    · exact contains_top
    · exact hi
  · rw [if_neg hw, Function.update_of_ne hw, ← bounds_eq hx.1]
    exact hx.2 w

lemma Describes.set_self (hi : i.contains (x name)) : (b.set name i).Describes x := by
  have hset : (b.set name i).Describes (Function.update x name (x name)) := hx.set hi
  rwa [Function.update_eq_self] at hset

lemma Describes.eval (f : LinearForm) : (b.eval f).contains (f.saturated x) := by
  rw [Boxes.eval, hx.1, if_neg (by decide)]
  exact contains_interval hx.2

lemma Describes.guardLe (hwords : ∀ v, fits (x v))
    (hle : f.value x ≤ 0) (hexact : f.GuardExact false x) : (b.guardLe f).Describes x := by
  obtain ⟨hwhole, hterms⟩ := hexact.resolve_left fun h => Bool.noConfusion h.1
  have hvalue : f.saturated x = f.value x := (hwhole rfl).resolve_left fun h => Bool.noConfusion h.1
  unfold Boxes.guardLe
  split
  next hpos =>
    -- The interval has the value, which is not positive.
    have hlow := (contains_iff.1 (hx.eval f)).1
    rw [hvalue] at hlow
    exact absurd (hlow.trans (finite_le_finite.2 hle)) hpos
  next =>
    refine List.foldlRecOn (motive := fun c : Boxes => c.Describes x) f.terms _ hx
      fun c hc t ht => ?_
    obtain ⟨hterm, hdrop⟩ := hterms t ht
    dsimp only
    split
    next low hlow =>
      have hrest := (contains_iff.1 (hc.eval (f.drop t.1))).1
      rw [hlow, hdrop.resolve_left fun h => Bool.noConfusion h.1, finite_le_finite] at hrest
      exact hc.set_self (contains_meet.2
        ⟨hc.2 t.1, contains_mulPreimage_drop ht hle hrest hterm (hwords t.1)⟩)
    next => exact hc

end

lemma Describes.guard {k : LinearConstraint} (hx : b.Describes x) (hwords : ∀ v, fits (x v))
    (hk : k.Holds x) (hexact : k.Exact false x) (h : b.guard k = .ok c) : c.Describes x := by
  unfold Boxes.guard at h
  unfold LinearConstraint.Exact at hexact
  unfold LinearConstraint.Holds at hk
  cases hrel : k.relation with
  | le =>
    rw [hrel] at h hexact hk
    cases h
    exact hx.guardLe hwords hk hexact
  | eq =>
    rw [hrel] at h hexact hk
    obtain ⟨g, hg, h⟩ := bind_eq_ok.1 h
    cases h
    have hneg : g.value x ≤ 0 := by
      rw [value_neg hg]
      omega
    exact (hx.guardLe hwords hk.le hexact.1).guardLe hwords hneg (hexact.2 g hg)
  | ne =>
    rw [hrel] at h hexact hk
    cases h
    split
    next hzero =>
      have hvalue := hexact.resolve_left fun h => Bool.noConfusion h.1
      have := eq_of_constant? hzero (hx.eval k.form)
      exact absurd (hvalue.symm.trans this) hk
    next => exact hx

end Boxes

/-! ## Octagons -/

namespace Interval

variable {i : Interval} {m : Int}

lemma add_top (hi : i.contains m) : i.add .top = .top := by
  have he := isEmpty_of_contains hi
  obtain ⟨hl, hh⟩ := contains_iff.1 hi
  rw [add, if_neg (by rw [he]; decide)]
  have hlow : i.low.add .negInf = .negInf := by cases h : i.low <;> simp_all [Bound.add]
  have hhigh : i.high.add .posInf = .posInf := by cases i.high <;> rfl
  exact congrArg₂ between hlow hhigh

lemma top_add (hi : i.contains m) : Interval.top.add i = .top := by
  have he := isEmpty_of_contains hi
  obtain ⟨hl, hh⟩ := contains_iff.1 hi
  rw [add, if_neg (by rw [he]; decide)]
  have hlow : Bound.negInf.add i.low = .negInf := by cases h : i.low <;> simp_all [Bound.add]
  have hhigh : Bound.posInf.add i.high = .posInf := by cases i.high <;> rfl
  exact congrArg₂ between hlow hhigh

lemma top_mul_unit {a : Int} (ha : a = 1 ∨ a = -1) : Interval.top.mul (.constant a) = .top := by
  rcases ha with rfl | rfl <;> rfl

end Interval

lemma LinearForm.interval_eq_top {f : LinearForm} {x : String → Int} {bounds : String → Interval}
    (h : ∀ v, (bounds v).contains (x v)) {t : String × Int} (ht : t ∈ f.terms)
    (htop : (bounds t.1).mul (.constant t.2) = .top) : f.interval bounds = .top := by
  have hrun : ∀ (terms : List (String × Int)) (i : Interval) (s : Int), i.contains s = true →
      i = .top ∨ t ∈ terms →
      terms.foldl (fun i t => i.add ((bounds t.1).mul (.constant t.2))) i = .top := by
    intro terms
    induction terms with
    | nil => exact fun i s _ hi => hi.resolve_right not_mem_nil
    | cons u terms ih =>
      intro i s hs hi
      have hu := contains_satMul (h u.1) (contains_constant.2 (rfl : u.2 = u.2))
      refine ih _ _ (contains_satAdd hs hu) ?_
      rcases hi with rfl | hmem
      · exact .inl (top_add hu)
      · rcases mem_cons.1 hmem with rfl | hmem
        · exact .inl ((congrArg i.add htop).trans (add_top hs))
        · exact .inr hmem
  exact hrun f.terms _ _ (contains_constant.2 rfl) (.inr ht)

namespace Octagon

open Dbm (twin)

variable {o p : Octagon} {x : String → Int} {f : LinearForm} {i j : Nat}

lemma difference?_spec (h : o.difference? f = some (i, j)) : i < 2 * o.vars.size ∧ j < 2 *
    o.vars.size ∧ ∀ x, f.value x = quantity o.vars x j - quantity o.vars x i + f.constant := by
  unfold difference? at h
  split at h
  next v a w b hterms =>
    obtain ⟨p, hp, h⟩ := Option.bind_eq_some_iff.1 h
    obtain ⟨q, hq, h⟩ := Option.bind_eq_some_iff.1 h
    cases h
    obtain ⟨hplt, hpx⟩ := unitTerm?_spec hp
    obtain ⟨hqlt, hqx⟩ := unitTerm?_spec hq
    refine ⟨Dbm.twin_lt hqlt, hplt, fun x => ?_⟩
    rw [quantity_twin, hpx, hqx, value_eq_support, hterms]
    simp only [sumTerms]
    ring
  next => cases h

section

variable (ho : o.Square) (hx : o.Describes x)
include ho hx

/-- A pair is read off the matrix, unless one of its variables has no bounds at all. -/
lemma Describes.interval_pair (hf : f.IsPair)
    (hnone : o.difference? f = none) : f.interval o.bounds = .top := by
  obtain ⟨v, a, w, b, hterms, ha, hb⟩ := hf
  have hfree : ∀ u, u ∉ o.vars → o.bounds u = .top := by
    intro u hu
    have hindex : o.index? u = none := idxOf?_eq_none_iff.2 hu
    rw [Octagon.bounds, hx.1, if_neg (by decide), hindex]
  by_cases hv : v ∈ o.vars
  · have hw : w ∉ o.vars := by
      intro hw
      obtain ⟨p, hp⟩ := exists_unitTerm? hv ha
      obtain ⟨q, hq⟩ := exists_unitTerm? hw hb
      unfold difference? at hnone
      rw [hterms] at hnone
      simp [hp, hq] at hnone
    refine interval_eq_top (t := (w, b)) (hx.bounds ho) (mem_terms_of_support (by simp [hterms])) ?_
    rw [hfree w hw, top_mul_unit hb]
  · refine interval_eq_top (t := (v, a)) (hx.bounds ho) (mem_terms_of_support (by simp [hterms])) ?_
    rw [hfree v hv, top_mul_unit ha]

lemma Describes.eval (hf : f.Exact true x) : (o.eval f).contains (f.value x) := by
  unfold Octagon.eval
  rw [hx.1, if_neg (by decide)]
  split
  next i j hij =>
    obtain ⟨-, -, hvalue⟩ := difference?_spec hij
    obtain ⟨-, hcx⟩ := (describes_close_iff ho).2 hx
    have hlow := hcx j i
    have hhigh := hcx i j
    rw [vars_close] at hlow hhigh
    dsimp only
    rw [contains_between, hvalue x]
    constructor
    · cases hc : (o.close.bound j i).bind fun u => sub? f.constant u with
      | none => exact negInf_le _
      | some c =>
        obtain ⟨u, hu, hc⟩ := bind_eq_some_iff.1 hc
        have := hlow u hu
        have := (ofInt?_eq_some.1 hc).2
        exact finite_le_finite.2 (by omega)
    · cases hc : (o.close.bound i j).bind fun u => Word.add? u f.constant with
      | none => exact le_posInf _
      | some c =>
        obtain ⟨u, hu, hc⟩ := bind_eq_some_iff.1 hc
        have := hhigh u hu
        have := (ofInt?_eq_some.1 hc).2
        exact finite_le_finite.2 (by omega)
  next hnone =>
    change (f.interval o.bounds).contains (f.value x) = true
    rcases hf with ⟨-, hpair⟩ | hvalue
    · rw [hx.interval_pair ho hpair hnone]
      exact contains_top
    · rw [← hvalue]
      exact contains_interval (hx.bounds ho)

lemma Describes.guardTerms (hwords : ∀ v, fits (x v)) (hle : f.value x ≤ 0)
    (hexact : ∀ t ∈ f.terms, fits (x t.1 * t.2) ∧ (f.drop t.1).Exact true x) :
    (o.guardTerms f).Describes x := by
  unfold Octagon.guardTerms
  refine (List.foldlRecOn (motive := fun p : Octagon => p.Square ∧ p.Describes x) f.support _ ⟨ho,
    hx⟩ fun p hp t ht => ?_).2
  have ht := mem_terms_of_support ht
  obtain ⟨hps, hpx⟩ := hp
  obtain ⟨hterm, hdrop⟩ := hexact t ht
  dsimp only
  split
  next low hlow =>
    have hrest := (contains_iff.1 (hpx.eval hps hdrop)).1
    rw [hlow, finite_le_finite] at hrest
    exact ⟨hps.setBounds _ _, hpx.setBounds hps (contains_meet.2
      ⟨hpx.bounds hps t.1, contains_mulPreimage_drop ht hle hrest hterm (hwords t.1)⟩)⟩
  next => exact ⟨hps, hpx⟩

end

lemma signedTerm?_spec {v : String} {a : Int} {p : Nat} (h : o.signedTerm? v a = some p)
    (ha : a = 1 ∨ a = -1) : p < 2 * o.vars.size ∧ ∀ x, quantity o.vars x p = a * x v := by
  refine unitTerm?_spec (o := o) ?_
  obtain ⟨k, hk, rfl⟩ := map_eq_some_iff.1 h
  unfold unitTerm?
  rw [hk, bind_some]
  rcases ha with rfl | rfl <;> rfl

lemma exists_signedTerm? {v : String} {a : Int} (h : (v, a) ∈ f.support) :
    ∃ p, (o.addVars f.supportVars).signedTerm? v a = some p := by
  obtain ⟨k, hk⟩ := exists_index? ((mem_vars_addVars (o := o) f.supportVars).2 (.inl (mem_map.2 ⟨_,
    h, rfl⟩)))
  exact ⟨_, by rw [signedTerm?, hk, map_some]⟩

/-- Sums and differences of two variables go into the matrix with the negated constant. -/
lemma guardLe_pair (o : Octagon) (h : f.IsPair) : ∃ i j,
    i < 2 * (o.addVars f.supportVars).vars.size ∧ j < 2 * (o.addVars f.supportVars).vars.size ∧
    (∀ x, f.value x = quantity (o.addVars f.supportVars).vars x j - quantity
      (o.addVars f.supportVars).vars x i + f.constant) ∧
    o.guardLe f = (Word.neg f.constant).map fun c =>
      ((o.addVars f.supportVars).constrain i j c).close := by
  obtain ⟨v, a, w, b, hterms, ha, hb⟩ := h
  obtain ⟨p, hp⟩ := exists_signedTerm? (o := o) (f := f) (v := v) (a := a) (by simp [hterms])
  obtain ⟨q, hq⟩ := exists_signedTerm? (o := o) (f := f) (v := w) (a := b) (by simp [hterms])
  obtain ⟨hplt, hpx⟩ := signedTerm?_spec hp ha
  obtain ⟨hqlt, hqx⟩ := signedTerm?_spec hq hb
  refine ⟨Dbm.twin q, p, Dbm.twin_lt hqlt, hplt, fun x => ?_, ?_⟩
  · rw [quantity_twin, hpx, hqx, value_eq_support, hterms]
    simp only [sumTerms]
    ring
  · unfold Octagon.guardLe
    simp only [hterms, isUnit_iff.2 ha, isUnit_iff.2 hb, Bool.and_self, if_true, hp, hq]
    cases Word.neg f.constant <;> rfl

lemma guardLe_of_not_small (o : Octagon) (h : ¬ f.IsSmall) :
    o.guardLe f = .ok ((o.addVars f.supportVars).guardTerms f).close := by
  unfold Octagon.guardLe
  dsimp only
  split
  next hnil => exact absurd (.inl hnil) h
  next v a hone =>
    rw [if_neg fun ha => h (.inr (.inl ⟨v, a, hone, isUnit_iff.1 ha⟩))]
    rfl
  next v a w b htwo =>
    rw [if_neg fun hunits => ?_]
    · rfl
    · rw [Bool.and_eq_true, isUnit_iff, isUnit_iff] at hunits
      exact h (.inr (.inr ⟨v, a, w, b, htwo, hunits⟩))
  next => rfl

lemma Describes.guardLe (ho : o.Square) (hx : o.Describes x) (hwords : ∀ v, fits (x v))
    (hle : f.value x ≤ 0) (hexact : f.GuardExact true x) (h : o.guardLe f = .ok p) :
    p.Describes x := by
  have hs := ho.addVars f.supportVars
  rw [← describes_addVars_iff ho f.supportVars] at hx
  by_cases hsmall : f.IsSmall
  · rcases hsmall with hnil | ⟨v, a, hone, ha⟩ | hpair
    · unfold Octagon.guardLe at h
      simp only [hnil] at h
      cases h
      have hvalue : f.value x = f.constant := by
        rw [value_eq_support, hnil, sumTerms, Int.add_zero]
      rw [if_neg (by omega), describes_close_iff hs]
      exact hx
    · have hvalue : f.value x = f.constant + a * x v := by
        rw [value_eq_support, hone]
        simp [sumTerms]
      unfold Octagon.guardLe at h
      simp only [hone, isUnit_iff.2 ha, if_true] at h
      split at h
      next q c hq hc =>
        cases h
        obtain ⟨hlt, hquantity⟩ := signedTerm?_spec hq ha
        have := (ofInt?_eq_some.1 hc).2
        rw [describes_close_iff (hs.constrain _ _ _),
          describes_constrain_iff hs (Dbm.twin_lt hlt) hlt, quantity_twin, hquantity]
        exact ⟨hx, by omega⟩
      next =>
        cases h
        exact (describes_close_iff hs).2 hx
    · obtain ⟨i, j, hi, hj, hvalue, hguard⟩ := guardLe_pair o hpair
      rw [hguard] at h
      obtain ⟨c, hc, rfl⟩ := Fault.map_eq_ok.1 h
      have := (exact_eq_ok.1 hc).2
      have := hvalue x
      rw [describes_close_iff (hs.constrain _ _ _), describes_constrain_iff hs hi hj]
      exact ⟨hx, by omega⟩
  · rw [guardLe_of_not_small o hsmall] at h
    cases h
    exact (describes_close_iff (hs.guardTerms f)).2
      (hx.guardTerms hs hwords hle (hexact.resolve_left fun h => hsmall h.2).2)

lemma Describes.guard {k : LinearConstraint} (ho : o.Square) (hx : o.Describes x)
    (hwords : ∀ v, fits (x v)) (hk : k.Holds x) (hexact : k.Exact true x)
    (h : o.guard k = .ok p) : p.Describes x := by
  unfold Octagon.guard at h
  rw [hx.1, if_neg (by decide)] at h
  unfold LinearConstraint.Exact at hexact
  unfold LinearConstraint.Holds at hk
  cases hrel : k.relation with
  | le =>
    rw [hrel] at h hexact hk
    exact hx.guardLe ho hwords hk hexact h
  | eq =>
    rw [hrel] at h hexact hk
    obtain ⟨q, hq, h⟩ := bind_eq_ok.1 h
    obtain ⟨g, hg, h⟩ := bind_eq_ok.1 h
    have hneg : g.value x ≤ 0 := by
      rw [value_neg hg]
      omega
    exact (hx.guardLe ho hwords hk.le hexact.1 hq).guardLe (ho.guardLe hq) hwords hneg
      (hexact.2 g hg) h
  | ne =>
    rw [hrel] at h hexact hk
    cases h
    split
    next hzero => exact absurd (eq_of_constant? hzero (hx.eval ho hexact)) hk
    next => exact hx

/-- Assignments keep every valuation, with the new value, if the form goes into the matrix or is
evaluated exactly. -/
lemma Describes.assign {name : String} (ho : o.Square) (hx : o.Describes x)
    (hexact : f.Octagonal name ∨ f.Exact true x) (h : o.assign name f = .ok p) :
    p.Describes (Function.update x name (f.value x)) := by
  by_cases hform : f.Octagonal name
  · exact hx.assign_octagonal hx.1 ho hform h
  · have hs := ho.tracking name f
    rw [assign_general hx.1 hform] at h
    cases h
    rw [← describes_tracking_iff ho name f] at hx
    refine (hx.forget hs name _).setBounds (hs.forget name) ?_
    rw [Function.update_self]
    exact hx.eval hs (hexact.resolve_left hform)

end Octagon
end StaticAnalysis
