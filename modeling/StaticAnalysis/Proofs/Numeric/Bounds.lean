import Mathlib.Order.MinMax
import Mathlib.Tactic.Linarith
import StaticAnalysis.Numeric.Bound

/-!
# Bounds as a linear order

Interval bounds are linearly ordered between the two infinities, and the saturating operations on
them are monotone.  These two facts carry the soundness of interval arithmetic: a saturated bound
stays on its side of every exact result that is a word.

`Bound.Fits` says that a finite bound is a word.  It is what keeps the interval of a quotient
sound, since the quotient of a bound beyond the word range would be read as `+∞`.
-/

namespace StaticAnalysis

open Int Word

/-! ## Words -/

namespace Word

variable {x a b c d : Int}

lemma least_le_of_fits (h : fits x) : least ≤ x := (fits_iff.1 h).1

lemma le_greatest_of_fits (h : fits x) : x ≤ greatest := (fits_iff.1 h).2

lemma clamp_mono {y : Int} (h : x ≤ y) : clamp x ≤ clamp y := by
  unfold clamp least greatest
  split_ifs <;> omega

lemma fits_of_between (ha : fits a) (hb : fits b) (hax : a ≤ x) (hxb : x ≤ b) : fits x := by
  rw [fits_iff] at ha hb ⊢
  omega

lemma fits_of_natAbs_le (ha : fits a) (h : x.natAbs ≤ a.natAbs) (hx : x ≤ greatest) : fits x := by
  rw [fits_iff] at ha ⊢
  unfold least greatest at *
  omega

lemma exact_eq_ok {op : WordOp} : exact op a = .ok c ↔ fits a ∧ a = c := by
  unfold exact
  split <;> simp_all

lemma eq_of_sub (h : sub a b = .ok d) : a - b = d := (exact_eq_ok.1 h).2

lemma fits_tmod (h : fits x) : fits (x.tmod c) := by
  have habs : (x.tmod c).natAbs ≤ x.natAbs := by
    rw [natAbs_tmod]
    exact Nat.mod_le _ _
  refine fits_of_natAbs_le h habs ?_
  rcases le_total 0 x with hx | hx
  · exact le_trans (by omega) (le_greatest_of_fits h)
  · have hneg : 0 ≤ (-x).tmod c := tmod_nonneg c (by omega)
    rw [neg_tmod] at hneg
    exact le_trans (by omega : x.tmod c ≤ 0) (by decide)

end Word

namespace Bound

/-! ## Order -/

@[simp] lemma negInf_le (b : Bound) : negInf ≤ b := by cases b <;> rfl

@[simp] lemma le_posInf (b : Bound) : b ≤ posInf := by cases b <;> rfl

variable {a n m s c z : Int} {b q x l h y : Bound}

@[simp] lemma finite_le_finite {b : Int} : finite a ≤ finite b ↔ a ≤ b := by
  change decide (a ≤ b) = true ↔ a ≤ b
  simp

@[simp] lemma not_posInf_le_finite (a : Int) : ¬ posInf ≤ finite a := by
  intro h
  cases h

@[simp] lemma not_posInf_le_negInf : ¬ posInf ≤ negInf := by
  intro h
  cases h

@[simp] lemma not_finite_le_negInf (a : Int) : ¬ finite a ≤ negInf := by
  intro h
  cases h

lemma toFinite?_eq_some : b.toFinite? = some n ↔ b = .finite n := by
  cases b <;> simp [toFinite?]

lemma lt_iff_not_le {a : Bound} : a < b ↔ ¬ b ≤ a := Iff.rfl

instance : LinearOrder Bound where
  le_refl a := by cases a <;> simp
  le_trans a b c hab hbc := by
    cases a <;> cases b <;> cases c <;> simp_all
    omega
  le_antisymm a b hab hba := by
    cases a <;> cases b <;> simp_all
    omega
  le_total a b := by
    cases a <;> cases b <;> simp
    omega
  lt_iff_le_not_ge a b := by
    rw [lt_iff_not_le]
    cases a <;> cases b <;> simp
    omega
  toDecidableLE := inferInstance
  toDecidableEq := inferInstance
  min_def _ _ := rfl
  max_def _ _ := rfl

lemma le_negInf_iff : b ≤ negInf ↔ b = negInf := by cases b <;> simp

lemma posInf_le_iff : posInf ≤ b ↔ b = posInf := by cases b <;> simp

lemma le_cases {a : Bound} (h : a ≤ b) :
    a = negInf ∨ b = posInf ∨ ∃ n m, a = finite n ∧ b = finite m ∧ n ≤ m := by
  cases a <;> cases b <;> simp_all

/-! ## Word bounds -/

def Fits : Bound → Prop
  | .finite n => Word.fits n = true
  | _ => True

@[simp] lemma fits_finite : (finite n).Fits ↔ fits n := Iff.rfl

@[simp] lemma fits_negInf : negInf.Fits := trivial

@[simp] lemma fits_posInf : posInf.Fits := trivial

lemma fits_neg (b : Bound) : b.neg.Fits := by
  cases b
  · trivial
  · exact fits_clamp _
  · trivial

lemma fits_add (a b : Bound) : (a.add b).Fits := by
  cases a <;> cases b <;> first | trivial | exact fits_clamp _

lemma fits_infinity (s : Int) : (infinity s).Fits := by
  unfold infinity
  split <;> trivial

lemma fits_mul (a b : Bound) : (a.mul b).Fits := by
  unfold mul
  split
  · exact fits_clamp _
  · exact (by decide : fits 0 = true)
  · exact (by decide : fits 0 = true)
  · exact fits_infinity _

lemma fits_ofInt (x : Int) : (ofInt x).Fits := by
  unfold ofInt
  split
  · assumption
  · split <;> trivial

lemma fits_of_mem_quotients {a : Bound} (h : q ∈ quotients a b) : q.Fits := by
  have zero : (finite 0).Fits := (by decide : fits 0 = true)
  unfold quotients at h
  split at h
  · simp at h
  · unfold ofInt? at h
    split at h
    next hq =>
      split at hq
      next hf =>
        cases hq
        simp_all
      · cases hq
    · simp_all
  · simp_all
  · simp_all [fits_infinity]
  · rcases List.mem_cons.1 h with rfl | h
    · exact zero
    · simp_all [fits_infinity]

lemma fits_min {a : Bound} (ha : a.Fits) (hb : b.Fits) : (min a b).Fits := by
  rcases min_choice a b with h | h <;> rw [h] <;> assumption

lemma fits_max {a : Bound} (ha : a.Fits) (hb : b.Fits) : (max a b).Fits := by
  rcases max_choice a b with h | h <;> rw [h] <;> assumption

/-! ## Monotone operations -/

lemma neg_le_neg {a : Bound} (h : a ≤ b) : b.neg ≤ a.neg := by
  cases a <;> cases b <;> simp_all [neg]
  exact clamp_mono (by omega)

lemma add_le_satAdd {a : Bound} (ha : a ≤ finite m) (hb : b ≤ finite n) :
    a.add b ≤ finite (satAdd m n) := by
  cases a <;> cases b <;> simp_all [add, satAdd]
  exact clamp_mono (by omega)

lemma satAdd_le_add {a : Bound} (ha : finite m ≤ a) (hb : finite n ≤ b) :
    finite (satAdd m n) ≤ a.add b := by
  cases a <;> cases b <;> simp_all [add, satAdd]
  exact clamp_mono (by omega)

lemma add_le_of_le {a : Bound} (ha : a ≤ finite m) (hb : b ≤ finite n) (h : fits (m + n)) :
    a.add b ≤ finite (m + n) := by
  rw [← clamp_of_fits h]
  exact add_le_satAdd ha hb

lemma neg_finite (h : fits (-n)) : (finite n).neg = finite (-n) := by
  simp [neg, satNeg, clamp_of_fits h]

/-! ## Products -/

lemma mul_comm (a b : Bound) : a.mul b = b.mul a := by
  cases a <;> cases b <;> simp [mul, satMul, Int.mul_comm]
  all_goals split <;> simp_all [Int.mul_comm]

@[simp] lemma mul_finite (a b : Int) : (finite a).mul (finite b) = finite (clamp (a * b)) := rfl

@[simp] lemma zero_mul (b : Bound) : (finite 0).mul b = finite 0 := by
  cases b <;> simp [mul, satMul, clamp_of_fits (by decide : fits 0 = true)]

lemma finite_mul_posInf (h : n ≠ 0) : (finite n).mul posInf = infinity n := by
  unfold mul
  split <;> simp_all [sign, infinity, sign_neg_iff]

lemma finite_mul_negInf (h : n ≠ 0) : (finite n).mul negInf = infinity (-n) := by
  unfold mul
  split <;> simp_all [sign, infinity, sign_pos_iff]

lemma infinity_of_pos (h : 0 < s) : infinity s = posInf := if_neg (by omega)

lemma infinity_of_neg (h : s < 0) : infinity s = negInf := if_pos h

lemma posInf_mul_mono {c : Bound} (h : b ≤ c) : posInf.mul b ≤ posInf.mul c := by
  rcases le_cases h with rfl | rfl | ⟨n, m, rfl, rfl, hnm⟩
  · exact negInf_le _
  · exact le_posInf _
  rw [mul_comm, mul_comm posInf]
  rcases lt_trichotomy n 0 with hn | rfl | hn
  · rw [finite_mul_posInf hn.ne, infinity_of_neg hn]
    exact negInf_le _
  · rcases eq_or_lt_of_le hnm with rfl | hm
    · exact le_refl _
    · rw [finite_mul_posInf hm.ne', infinity_of_pos hm]
      exact le_posInf _
  · rw [finite_mul_posInf (hn.trans_le hnm).ne', infinity_of_pos (hn.trans_le hnm)]
    exact le_posInf _

lemma negInf_mul (b : Bound) : negInf.mul b = (posInf.mul b).neg := by
  rw [mul_comm, mul_comm posInf]
  cases b with
  | negInf | posInf => rfl
  | finite n =>
    rcases lt_trichotomy n 0 with hn | rfl | hn
    · rw [finite_mul_negInf hn.ne, finite_mul_posInf hn.ne, infinity_of_pos (neg_pos.2 hn),
        infinity_of_neg hn]
      rfl
    · rfl
    · rw [finite_mul_negInf hn.ne', finite_mul_posInf hn.ne', infinity_of_neg (neg_neg_of_pos hn),
        infinity_of_pos hn]
      rfl

lemma mul_le_mul_of_nonneg {c : Bound} (hx : finite 0 ≤ x) (h : b ≤ c) : x.mul b ≤ x.mul c := by
  cases x with
  | negInf => simp at hx
  | posInf => exact posInf_mul_mono h
  | finite a =>
    rw [finite_le_finite] at hx
    rcases eq_or_lt_of_le hx with rfl | ha
    · simp
    rcases le_cases h with rfl | rfl | ⟨n, m, rfl, rfl, hnm⟩
    · rw [finite_mul_negInf ha.ne', infinity_of_neg (neg_neg_of_pos ha)]
      exact negInf_le _
    · rw [finite_mul_posInf ha.ne', infinity_of_pos ha]
      exact le_posInf _
    · simpa using clamp_mono (Int.mul_le_mul_of_nonneg_left hnm hx)

lemma mul_le_mul_of_nonpos {c : Bound} (hx : x ≤ finite 0) (h : b ≤ c) : x.mul c ≤ x.mul b := by
  cases x with
  | negInf =>
    rw [negInf_mul, negInf_mul]
    exact neg_le_neg (posInf_mul_mono h)
  | posInf => simp at hx
  | finite a =>
    rw [finite_le_finite] at hx
    rcases eq_or_lt_of_le hx with rfl | ha
    · simp
    rcases le_cases h with rfl | rfl | ⟨n, m, rfl, rfl, hnm⟩
    · rw [finite_mul_negInf ha.ne, infinity_of_pos (neg_pos.2 ha)]
      exact le_posInf _
    · rw [finite_mul_posInf ha.ne, infinity_of_neg ha]
      exact negInf_le _
    · simpa using clamp_mono (Int.mul_le_mul_of_nonpos_left hx hnm)

lemma mul_enclosed (x : Bound) (hl : l ≤ b) (hh : b ≤ h) :
    (∃ y ∈ [l, h], x.mul y ≤ x.mul b) ∧ ∃ y ∈ [l, h], x.mul b ≤ x.mul y := by
  rcases le_total (finite 0) x with hx | hx
  · exact ⟨⟨l, by simp, mul_le_mul_of_nonneg hx hl⟩, ⟨h, by simp, mul_le_mul_of_nonneg hx hh⟩⟩
  · exact ⟨⟨h, by simp, mul_le_mul_of_nonpos hx hh⟩, ⟨l, by simp, mul_le_mul_of_nonpos hx hl⟩⟩

/-! ## Quotients -/

lemma tdiv_le_tdiv_of_neg {b : Int} (hc : c < 0) (h : a ≤ b) : b.tdiv c ≤ a.tdiv c := by
  have key := Int.tdiv_le_tdiv (neg_pos.2 hc) h
  rw [Int.tdiv_neg, Int.tdiv_neg] at key
  omega

lemma tdiv_anti_of_pos {b : Int} (ha : 0 ≤ a) (hb : 0 < b) (h : b ≤ c) : a.tdiv c ≤ a.tdiv b := by
  rw [tdiv_eq_ediv_of_nonneg ha, tdiv_eq_ediv_of_nonneg ha]
  refine Int.le_ediv_of_mul_le hb ?_
  calc a / c * b ≤ a / c * c :=
        Int.mul_le_mul_of_nonneg_left h (ediv_nonneg ha (hb.le.trans h))
    _ ≤ a := Int.ediv_mul_le a (by omega)

lemma tdiv_anti {b : Int} (ha : 0 ≤ a) (hs : 0 < b ∨ c < 0) (h : b ≤ c) : a.tdiv c ≤ a.tdiv b := by
  rcases hs with hb | hc
  · exact tdiv_anti_of_pos ha hb h
  · have key := tdiv_anti_of_pos ha (neg_pos.2 hc) (neg_le_neg_iff.2 h)
    rw [Int.tdiv_neg, Int.tdiv_neg] at key
    omega

lemma tdiv_mono {b : Int} (ha : a ≤ 0) (hs : 0 < b ∨ c < 0) (h : b ≤ c) : a.tdiv b ≤ a.tdiv c := by
  have key := tdiv_anti (neg_nonneg.2 ha) hs h
  rw [Int.neg_tdiv, Int.neg_tdiv] at key
  omega

def ofQuotient (z : Int) : Bound := if Word.fits z then finite z else posInf

lemma quotients_finite (hc : c ≠ 0) :
    quotients (finite a) (finite c) = [ofQuotient (a.tdiv c)] := by
  by_cases hf : fits (a.tdiv c) = true <;> simp [quotients, ofQuotient, ofInt?, hf]

lemma ofQuotient_le (ha : fits a) (hz : fits z) (h : a.tdiv c ≤ z) :
    ofQuotient (a.tdiv c) ≤ finite z := by
  have hf : fits (a.tdiv c) = true :=
    fits_of_natAbs_le ha (natAbs_tdiv_le_natAbs a c)
      (h.trans (le_greatest_of_fits hz))
  simpa [ofQuotient, hf] using h

lemma le_ofQuotient {y : Int} (h : z ≤ y) : finite z ≤ ofQuotient y := by
  unfold ofQuotient
  split <;> simp [h]

lemma ofQuotient_mono {k : Int} (hk : fits k) (h : k.tdiv c ≤ a.tdiv c) :
    ofQuotient (k.tdiv c) ≤ ofQuotient (a.tdiv c) := by
  by_cases ha : fits (a.tdiv c) = true
  · simpa [ofQuotient, ha] using ofQuotient_le hk ha h
  · simp [ofQuotient, ha]

lemma zero_mem_quotients (x : Bound) (hy : ∀ c, y ≠ finite c) : finite 0 ∈ quotients x y := by
  cases x <;> cases y <;> simp_all [quotients]

/-- A corner at divisor `y`, where a divisor without limit stands for the quotient zero. -/
lemma exists_quotient {P : Bound → Prop}
    (hfin : ∀ c, y = finite c → c ≠ 0 ∧ P (ofQuotient (a.tdiv c)))
    (hinf : (∀ c, y ≠ finite c) → P (finite 0)) : ∃ q ∈ quotients (finite a) y, P q := by
  by_cases hy : ∃ c, y = finite c
  · obtain ⟨c, rfl⟩ := hy
    obtain ⟨hc, hle⟩ := hfin c rfl
    rw [quotients_finite hc]
    exact ⟨_, by simp, hle⟩
  · have hy' : ∀ c, y ≠ finite c := fun c hc => hy ⟨c, hc⟩
    exact ⟨finite 0, zero_mem_quotients _ hy', hinf hy'⟩

lemma tdiv_nonpos_of_signs {b : Int} (h : (0 ≤ a ∧ b ≤ 0) ∨ (a ≤ 0 ∧ 0 ≤ b)) : a.tdiv b ≤ 0 := by
  rcases h with ⟨ha, hb⟩ | ⟨ha, hb⟩
  · have key := Int.tdiv_nonneg ha (neg_nonneg.2 hb)
    rw [Int.tdiv_neg] at key
    omega
  · have key := Int.tdiv_nonneg (neg_nonneg.2 ha) hb
    rw [Int.neg_tdiv] at key
    omega

lemma quotients_enclosed_divisor {b : Int} (ha : fits a) (hq : fits (a.tdiv b))
    (hl : l ≤ finite b) (hh : finite b ≤ h) (hs : finite 1 ≤ l ∨ h ≤ finite (-1)) :
    (∃ y ∈ [l, h], ∃ q ∈ quotients (finite a) y, q ≤ finite (a.tdiv b)) ∧
      ∃ y ∈ [l, h], ∃ q ∈ quotients (finite a) y, finite (a.tdiv b) ≤ q := by
  -- What the ends are if they are finite, and which sign `b` has if one of them is not.
  have hlow : ∀ c, l = finite c → c ≤ b ∧ c ≠ 0 ∧ (0 < c ∨ b < 0) := by
    rintro c rfl
    cases h <;> simp_all <;> omega
  have hhigh : ∀ c, h = finite c → b ≤ c ∧ c ≠ 0 ∧ (0 < b ∨ c < 0) := by
    rintro c rfl
    cases l <;> simp_all <;> omega
  have hlinf : (∀ c, l ≠ finite c) → b < 0 := by
    intro hne
    cases l <;> cases h <;> simp_all
    omega
  have hhinf : (∀ c, h ≠ finite c) → 0 < b := by
    intro hne
    cases l <;> cases h <;> simp_all
    omega
  rcases le_total 0 a with hpos | hneg
  · refine ⟨⟨h, by simp, exists_quotient (fun c hc => ?_) fun hne => finite_le_finite.2 ?_⟩,
      ⟨l, by simp, exists_quotient (fun c hc => ?_) fun hne => finite_le_finite.2 ?_⟩⟩
    · obtain ⟨hbc, hc0, hsign⟩ := hhigh c hc
      exact ⟨hc0, ofQuotient_le ha hq (tdiv_anti hpos hsign hbc)⟩
    · exact Int.tdiv_nonneg hpos (hhinf hne).le
    · obtain ⟨hcb, hc0, hsign⟩ := hlow c hc
      exact ⟨hc0, le_ofQuotient (tdiv_anti hpos hsign hcb)⟩
    · exact tdiv_nonpos_of_signs (.inl ⟨hpos, (hlinf hne).le⟩)
  · refine ⟨⟨l, by simp, exists_quotient (fun c hc => ?_) fun hne => finite_le_finite.2 ?_⟩,
      ⟨h, by simp, exists_quotient (fun c hc => ?_) fun hne => finite_le_finite.2 ?_⟩⟩
    · obtain ⟨hcb, hc0, hsign⟩ := hlow c hc
      exact ⟨hc0, ofQuotient_le ha hq (tdiv_mono hneg hsign hcb)⟩
    · exact tdiv_nonneg_of_nonpos_of_nonpos hneg (hlinf hne).le
    · obtain ⟨hbc, hc0, hsign⟩ := hhigh c hc
      exact ⟨hc0, le_ofQuotient (tdiv_mono hneg hsign hbc)⟩
    · exact tdiv_nonpos_of_signs (.inr ⟨hneg, (hhinf hne).le⟩)

lemma quotients_negInf (hc : c ≠ 0) : quotients negInf (finite c) = [infinity (-c)] := by
  unfold quotients
  split <;> simp_all [sign, infinity]

lemma quotients_posInf (hc : c ≠ 0) : quotients posInf (finite c) = [infinity c] := by
  unfold quotients
  split <;> simp_all [sign, infinity]

/-- A corner at dividend `x`. -/
lemma exists_quotient_of_dividend {P : Bound → Prop} (hc : c ≠ 0)
    (hfin : ∀ k, x = finite k → P (ofQuotient (k.tdiv c))) (hneg : x = negInf → P (infinity (-c)))
    (hpos : x = posInf → P (infinity c)) : ∃ r ∈ quotients x (finite c), P r := by
  cases x with
  | negInf => exact ⟨_, by simp [quotients_negInf hc], hneg rfl⟩
  | posInf => exact ⟨_, by simp [quotients_posInf hc], hpos rfl⟩
  | finite k => exact ⟨_, by simp [quotients_finite hc], hfin k rfl⟩

lemma quotients_enclosed_dividend (hlf : l.Fits) (hhf : h.Fits) (ha : fits a)
    (hl : l ≤ finite a) (hh : finite a ≤ h) (hq : q ∈ quotients (finite a) y) :
    (∃ x ∈ [l, h], ∃ r ∈ quotients x y, r ≤ q) ∧ ∃ x ∈ [l, h], ∃ r ∈ quotients x y, q ≤ r := by
  by_cases hy : ∃ c, y = finite c
  · obtain ⟨c, rfl⟩ := hy
    have hc : c ≠ 0 := by
      rintro rfl
      simp [quotients] at hq
    rw [quotients_finite hc, List.mem_singleton] at hq
    subst hq
    have hlow : l ≠ posInf := by
      rintro rfl
      simp at hl
    have hhigh : h ≠ negInf := by
      rintro rfl
      simp at hh
    rcases lt_or_gt_of_ne hc with hneg | hpos
    · refine ⟨⟨h, by simp, exists_quotient_of_dividend hc ?_ (absurd · hhigh) fun _ => ?_⟩,
        ⟨l, by simp, exists_quotient_of_dividend hc ?_ (fun _ => ?_) (absurd · hlow)⟩⟩
      · rintro k rfl
        exact ofQuotient_mono hhf (tdiv_le_tdiv_of_neg hneg (finite_le_finite.1 hh))
      · simp [infinity_of_neg hneg]
      · rintro k rfl
        exact ofQuotient_mono ha (tdiv_le_tdiv_of_neg hneg (finite_le_finite.1 hl))
      · simp [infinity_of_pos (neg_pos.2 hneg)]
    · refine ⟨⟨l, by simp, exists_quotient_of_dividend hc ?_ (fun _ => ?_) (absurd · hlow)⟩,
        ⟨h, by simp, exists_quotient_of_dividend hc ?_ (absurd · hhigh) fun _ => ?_⟩⟩
      · rintro k rfl
        exact ofQuotient_mono hlf (Int.tdiv_le_tdiv hpos (finite_le_finite.1 hl))
      · simp [infinity_of_neg (neg_neg_of_pos hpos)]
      · rintro k rfl
        exact ofQuotient_mono ha (Int.tdiv_le_tdiv hpos (finite_le_finite.1 hh))
      · simp [infinity_of_pos hpos]
  · have hy' : ∀ c, y ≠ finite c := fun c hc => hy ⟨c, hc⟩
    have hq0 : q = finite 0 := by cases y <;> simp_all [quotients]
    subst hq0
    have hmem := zero_mem_quotients l hy'
    exact ⟨⟨l, by simp, _, hmem, le_refl _⟩, ⟨l, by simp, _, hmem, le_refl _⟩⟩

end Bound
end StaticAnalysis
