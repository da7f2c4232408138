import StaticAnalysis.Proofs.Numeric.Membership

/-!
# Meets of congruence classes

Two classes share an integer exactly when their constants agree modulo the greatest common divisor
of their moduli, and the integers that they share are then one class modulo the least common
multiple.  `Congruence.meet` computes that class, and forgets only a least common multiple that is
not a word.

`Congruence.meetWide` is the same computation in signed 128-bit arithmetic, with any extended
Euclidean algorithm, and has no value where a result leaves that range.  On canonical classes it has
one, and it is the meet.
-/

namespace StaticAnalysis

open Int Word

/-! ## Wide words -/

namespace Wide

/-- Whether an integer is a signed 128-bit word. -/
def fits (x : Int) : Bool :=
  decide (-0x80000000000000000000000000000000 ≤ x) && decide
    (x ≤ 0x7fffffffffffffffffffffffffffffff)

/-- The integer itself if it is a signed 128-bit word. -/
def ofInt? (x : Int) : Option Int := if fits x then some x else none

variable {c x y : Int}

lemma ofInt?_eq_some (h : |x| ≤ 0x7fffffffffffffffffffffffffffffff) : ofInt? x = some x := by
  obtain ⟨hlow, hhigh⟩ := abs_le.1 h
  have hfits : fits x = true := by
    unfold fits
    rw [Bool.and_eq_true, decide_eq_true_eq, decide_eq_true_eq]
    omega
  rw [ofInt?, if_pos hfits]

lemma abs_mul_le (hx : |x| ≤ greatest) (hy : |y| ≤ greatest) :
    |x * y| ≤ 0x3fffffffffffffff0000000000000001 := by
  rw [abs_mul]
  calc |x| * |y| ≤ greatest * greatest := mul_le_mul hx hy (abs_nonneg y) (by decide)
    _ = 0x3fffffffffffffff0000000000000001 := by decide

lemma ofInt?_mul (hx : |x| ≤ greatest) (hy : |y| ≤ greatest) : ofInt? (x * y) = some (x * y) := by
  apply ofInt?_eq_some
  have := abs_mul_le hx hy
  omega

lemma ofInt?_add_mul (hc : |c| ≤ greatest) (hx : |x| ≤ greatest)
    (hy : |y| ≤ greatest) : ofInt? (c + x * y) = some (c + x * y) := by
  apply ofInt?_eq_some
  have hsum := abs_add_le c (x * y)
  have := abs_mul_le hx hy
  unfold greatest at hc
  omega

end Wide

/-! ## Extended Euclidean algorithms -/

/-- What an extended Euclidean algorithm returns for two integers: the greatest common divisor and
the coefficients of the first and of the second integer. -/
structure ExtendedGcd where
  gcd : Int
  left : Int
  right : Int

/-- The greatest common divisor of two integers as a combination of them, in which neither
coefficient is larger than the other integer. -/
structure ExtendedGcd.Correct (e : ExtendedGcd) (x y : Int) : Prop where
  gcd_eq : e.gcd = Congruence.gcd x y
  sum_eq : e.left * x + e.right * y = e.gcd
  left_le : |e.left| ≤ y
  right_le : |e.right| ≤ x

namespace Congruence

variable {a b : Congruence} {n : Int}

/-- The combination that meets are computed from. -/
def euclid (x y : Int) : ExtendedGcd where
  gcd := gcd x y
  left := (bezout (y.toNat + 1) x.toNat y.toNat).1
  right := (bezout (y.toNat + 1) x.toNat y.toNat).2

/-- Going back up the divisions, a coefficient grows by the quotient times the other one, as the
dividend exceeds the remainder by the quotient times the divisor. -/
lemma bezout_le (fuel x y : Nat) (hx : 0 < x) (hy : 0 < y) (h : y < fuel) :
    |(bezout fuel x y).1| ≤ y ∧ |(bezout fuel x y).2| ≤ x := by
  induction fuel generalizing x y with
  | zero => omega
  | succ fuel ih =>
    unfold bezout
    rw [if_neg hy.ne']
    dsimp only
    by_cases hmod : x % y = 0
    · have hlast : bezout fuel y (x % y) = (1, 0) := by
        rw [hmod]
        cases fuel <;> rfl
      rw [hlast, abs_zero, mul_zero, sub_zero, abs_one]
      omega
    · obtain ⟨hs, ht⟩ := ih y (x % y) hy (by omega) (by have := Nat.mod_lt x hy; omega)
      generalize bezout fuel y (x % y) = r at hs ht
      refine ⟨ht, ?_⟩
      have hquotient : 0 ≤ Int.ofNat (x / y) := natCast_nonneg _
      have hdiv : (x : Int) = (x % y : Nat) + Int.ofNat (x / y) * y := by
        rw [ofNat_eq_natCast]
        exact_mod_cast (Nat.mod_add_div' x y).symm
      calc |r.1 - Int.ofNat (x / y) * r.2| ≤ |r.1| + |Int.ofNat (x / y) * r.2| := abs_sub _ _
        _ = |r.1| + Int.ofNat (x / y) * |r.2| := by rw [abs_mul, abs_of_nonneg hquotient]
        _ ≤ (x % y : Nat) + Int.ofNat (x / y) * y :=
          add_le_add hs (mul_le_mul_of_nonneg_left ht hquotient)
        _ = x := hdiv.symm

lemma correct_euclid {x y : Int} (hx : 0 < x) (hy : 0 < y) : (euclid x y).Correct x y := by
  obtain ⟨hleft, hright⟩ := bezout_le (y.toNat + 1) x.toNat y.toNat (by omega) (by omega) (by omega)
  rw [toNat_of_nonneg hy.le] at hleft
  rw [toNat_of_nonneg hx.le] at hright
  exact ⟨rfl, bezout_gcd hx hy, hleft, hright⟩

/-! ## Members of a meet -/

variable {c k : Int}

lemma ofResidue_of_fits (c : Int) (hk : 1 < k) (hfits : Word.fits k) :
    ofResidue c k = .residue (c % k) k := by
  have hmod : Word.fits (c % k) = true := by
    have := emod_nonneg c (by omega : k ≠ 0)
    have := emod_lt_of_pos c (by omega : 0 < k)
    rw [fits_iff] at hfits ⊢
    unfold least at *
    omega
  unfold ofResidue
  rw [ofNat_eq_natCast, natAbs_of_nonneg (by omega)]
  dsimp only
  rw [if_neg (by omega), if_neg (by omega), hmod, hfits, Bool.and_self, if_pos rfl]

lemma exists_ofResidue_eq (hk : 0 ≤ k) (hfits : Word.fits k)
    (hc : k = 0 → Word.fits c) : ∃ c', ofResidue c k = .residue c' k ∧ k ∣ c' - c := by
  by_cases hzero : k = 0
  · subst hzero
    exact ⟨c, ofResidue_zero (hc rfl), by simp⟩
  by_cases hone : k = 1
  · subst hone
    exact ⟨0, rfl, one_dvd _⟩
  · exact ⟨c % k, ofResidue_of_fits c (by omega) hfits, dvd_sub_comm.1 dvd_self_sub_emod⟩

lemma ofResidue_eq_top (hk : 0 ≤ k) (hfits : Word.fits k = false) : ofResidue c k = top := by
  rcases ofResidue_cases c k with ⟨rfl, -, -⟩ | hform | ⟨-, -, hword, -⟩
  · cases hfits
  · exact hform
  · rw [abs_of_nonneg hk, hfits] at hword
    cases hword

lemma meet_eq_bottom_iff (ha : a.Canonical) (hb : b.Canonical) :
    a.meet b = .bottom ↔ ∀ n, ¬ (a.contains n ∧ b.contains n) := by
  constructor
  · rintro h n ⟨hna, hnb⟩
    have hn := contains_meet ha hb hna hnb
    rw [h] at hn
    cases hn
  · intro hnone
    rcases meet_cases ha hb with ⟨-, h⟩ | ⟨x, hxa, hxb, -⟩
    · exact h
    · exact absurd ⟨hxa, hxb⟩ (hnone x)

/-- The least common multiple of the moduli is a word.  It is zero if one of the classes is a single
integer. -/
def LcmFits : Congruence → Congruence → Prop
  | .residue _ k₁, .residue _ k₂ => Word.fits (Int.lcm k₁ k₂) = true
  | _, _ => True

lemma lcmFits_iff : a.LcmFits b ↔ Word.fits (Int.lcm a.modulus b.modulus) := by
  have hzero : Word.fits 0 = true := by decide
  cases a <;> cases b <;> simp [LcmFits, modulus, hzero]

lemma lcmFits_of_constant (h : (∃ c, a = constant c) ∨ ∃ c, b = constant c) : a.LcmFits b := by
  rw [lcmFits_iff]
  rcases h with ⟨c, rfl⟩ | ⟨c, rfl⟩ <;> simp only [constant, modulus, lcm_zero_left,
    lcm_zero_right] <;>
    decide

lemma contains_of_meet (ha : a.Canonical) (hb : b.Canonical) (hfits : a.LcmFits b)
    (h : (a.meet b).contains n) : a.contains n ∧ b.contains n := by
  rcases meet_cases ha hb with ⟨-, hmeet⟩ | ⟨x, hxa, hxb, hmeet⟩ <;> rw [hmeet] at h
  · cases h
  have hword : (Int.lcm a.modulus b.modulus : Int) = 0 → Word.fits x = true := by
    have hconst {a : Congruence} (ha : a.Canonical) (hx : a.contains x = true)
        (hzero : a.modulus = 0) : Word.fits x = true := by
      obtain ⟨c, k, rfl, hdvd⟩ := exists_residue_of_contains hx
      cases hzero
      rw [sub_eq_zero.1 (zero_dvd_iff.1 hdvd)]
      exact ha.1
    intro hzero
    exact (Int.lcm_eq_zero_iff.1 (by exact_mod_cast hzero)).elim (hconst ha hxa) (hconst hb hxb)
  obtain ⟨c, hform, hdvd⟩ := exists_ofResidue_eq (natCast_nonneg _) (lcmFits_iff.1 hfits) hword
  rw [hform, residue_contains] at h
  have hx : (Int.lcm a.modulus b.modulus : Int) ∣ n - x := by
    rw [← sub_add_sub_cancel n c x]
    exact dvd_add h hdvd
  exact ⟨(contains_iff_dvd hxa).2 ((Int.dvd_lcm_left _ _).trans hx),
    (contains_iff_dvd hxb).2 ((Int.dvd_lcm_right _ _).trans hx)⟩

lemma meet_eq_top (ha : a.Canonical) (hb : b.Canonical) (hfits : ¬ a.LcmFits b)
    (h : a.meet b ≠ .bottom) : a.meet b = top := by
  rcases meet_cases ha hb with ⟨-, hmeet⟩ | ⟨x, -, -, hmeet⟩
  · exact absurd hmeet h
  · rw [lcmFits_iff, Bool.not_eq_true] at hfits
    rw [hmeet, ofResidue_eq_top (natCast_nonneg _) hfits]

/-! ## Wide arithmetic -/

/-- `meetResidues` in 128-bit arithmetic: there is no value where a difference, a product or a sum
is not a signed 128-bit word. -/
def meetResiduesWide (e : ExtendedGcd) (c₁ k₁ c₂ k₂ : Int) : Option Congruence := do
  let d ← Wide.ofInt? (c₂ - c₁)
  if d.tmod e.gcd ≠ 0 then
    return .bottom
  else
    let k ← Wide.ofInt? (k₁.tdiv e.gcd * k₂)
    let p ← Wide.ofInt? (d.tdiv e.gcd * e.left)
    let q ← Wide.ofInt? (k₁ * (p % k₂.tdiv e.gcd))
    let c ← Wide.ofInt? (c₁ + q)
    return ofResidue c k

/-- `meet` in 128-bit arithmetic, by the extended Euclidean algorithm `egcd`. -/
def meetWide (egcd : Int → Int → ExtendedGcd) : Congruence → Congruence → Option Congruence
  | .residue c₁ k₁, .residue c₂ k₂ =>
    if k₁ = 0 then some (if (residue c₂ k₂).contains c₁ then .residue c₁ k₁ else .bottom)
    else if k₂ = 0 then some (if (residue c₁ k₁).contains c₂ then .residue c₂ k₂ else .bottom)
    else meetResiduesWide (egcd k₁ k₂) c₁ k₁ c₂ k₂
  | _, _ => some .bottom

lemma abs_tdiv_le (x g : Int) : |x.tdiv g| ≤ |x| := by
  rw [← natCast_natAbs, ← natCast_natAbs, natAbs_tdiv]
  exact_mod_cast Nat.div_le_self _ _

lemma Canonical.abs_le_greatest (h : (residue c k).Canonical) (hk : 0 < k) :
    |c| ≤ greatest ∧ |k| ≤ greatest := by
  obtain ⟨-, hfits, -, hc⟩ := h
  obtain ⟨hc0, hck⟩ := hc hk
  have := le_greatest_of_fits hfits
  rw [abs_of_nonneg hc0, abs_of_pos hk]
  omega

/-- No intermediate result is out of range, and the coefficients of any algorithm lead to the same
class. -/
lemma meetResiduesWide_eq {c₁ k₁ c₂ k₂ : Int} {e : ExtendedGcd} (ha : (residue c₁ k₁).Canonical)
    (hb : (residue c₂ k₂).Canonical) (hk₁ : 0 < k₁) (hk₂ : 0 < k₂) (he : e.Correct k₁ k₂) :
    meetResiduesWide e c₁ k₁ c₂ k₂ = some (meetResidues c₁ k₁ c₂ k₂) := by
  obtain ⟨hc₁, hword₁⟩ := ha.abs_le_greatest hk₁
  obtain ⟨hc₂, hword₂⟩ := hb.abs_le_greatest hk₂
  have hgcd : e.gcd ≠ 0 := he.gcd_eq ▸ gcd_ne_zero hk₁
  have hdvd₁ : e.gcd ∣ k₁ := he.gcd_eq ▸ Int.gcd_dvd_left k₁ k₂
  have hdvd₂ : e.gcd ∣ k₂ := he.gcd_eq ▸ Int.gcd_dvd_right k₁ k₂
  have hdiff : |c₂ - c₁| ≤ greatest := by
    have hc₁' := ha.2.2.2 hk₁
    have hc₂' := hb.2.2.2 hk₂
    rw [abs_of_pos hk₁] at hword₁
    rw [abs_of_pos hk₂] at hword₂
    rw [abs_le]
    omega
  have hleft : |e.left| ≤ greatest := he.left_le.trans ((le_abs_self k₂).trans hword₂)
  have hsub : Wide.ofInt? (c₂ - c₁) = some (c₂ - c₁) := by
    apply Wide.ofInt?_eq_some
    unfold greatest at hdiff
    omega
  have hmodulus := Wide.ofInt?_mul ((abs_tdiv_le k₁ e.gcd).trans hword₁) hword₂
  have hproduct := Wide.ofInt?_mul ((abs_tdiv_le (c₂ - c₁) e.gcd).trans hdiff) hleft
  -- The multiple of the first modulus is reduced by a divisor of the second one.
  have hmultiple : |(c₂ - c₁).tdiv e.gcd * e.left % k₂.tdiv e.gcd| ≤ greatest := by
    have hne : k₂.tdiv e.gcd ≠ 0 := by
      intro hzero
      have := Int.mul_tdiv_cancel' hdvd₂
      rw [hzero, mul_zero] at this
      omega
    have hlt := Int.emod_lt_abs ((c₂ - c₁).tdiv e.gcd * e.left) hne
    rw [abs_of_nonneg (Int.emod_nonneg _ hne)]
    exact hlt.le.trans ((abs_tdiv_le k₂ e.gcd).trans hword₂)
  have hstep := Wide.ofInt?_mul hword₁ hmultiple
  have hsum := Wide.ofInt?_add_mul hc₁ hword₁ hmultiple
  unfold meetResiduesWide
  rw [hsub, Option.bind_eq_bind, Option.bind_some]
  rcases meetResidues_cases c₁ c₂ hk₁ hk₂ with ⟨hnone, hmeet⟩ | ⟨x, hx₁, hx₂, hmeet⟩
  · rw [← he.gcd_eq, ← tmod_eq_zero_iff] at hnone
    rw [if_pos hnone, hmeet]
    rfl
  · have hd : e.gcd ∣ c₂ - c₁ := he.gcd_eq ▸ gcd_dvd_sub hx₁ hx₂
    have hrep := dvd_representative hgcd hdvd₁ hdvd₂ hd he.sum_eq
    rw [if_neg (not_not.2 (tmod_eq_zero_iff.2 hd)), hmodulus, hproduct]
    simp only [Option.bind_some, hstep, hsum]
    rw [hmeet, he.gcd_eq, tdiv_gcd_mul hk₁ hk₂, ← he.gcd_eq]
    refine congrArg some (ofResidue_congr (lcm_dvd_of_contains
      (a := .residue c₁ k₁) (b := .residue c₂ k₂) (residue_contains.2 hx₁)
      (residue_contains.2 hx₂) (residue_contains.2 ?_) (residue_contains.2 hrep)))
    rw [add_sub_cancel_left]
    exact Dvd.intro _ rfl

lemma meetWide_eq {egcd : Int → Int → ExtendedGcd} (ha : a.Canonical) (hb : b.Canonical)
    (hegcd : ∀ x y, 0 < x → 0 < y → (egcd x y).Correct x y) : meetWide egcd a b =
    some (a.meet b) := by
  cases a with
  | bottom => rfl
  | residue c₁ k₁ =>
    cases b with
    | bottom => rfl
    | residue c₂ k₂ =>
      have hk₁ := ha.2.2.1
      have hk₂ := hb.2.2.1
      simp only [meetWide, meet]
      by_cases h₁ : k₁ = 0
      · rw [if_pos h₁, if_pos h₁]
      by_cases h₂ : k₂ = 0
      · rw [if_neg h₁, if_pos h₂, if_neg h₁, if_pos h₂]
      · rw [if_neg h₁, if_neg h₂, if_neg h₁, if_neg h₂]
        have hpos₁ : 0 < k₁ := by omega
        have hpos₂ : 0 < k₂ := by omega
        exact meetResiduesWide_eq ha hb hpos₁ hpos₂ (hegcd k₁ k₂ hpos₁ hpos₂)

/-- The meet of canonical classes is empty exactly if they have no common integer, and contains
every common integer.  If one class is a single integer or the least common multiple of the moduli
is a word, it contains nothing else; otherwise it is empty or the class of all integers.  In 128-bit
arithmetic, with any extended Euclidean algorithm, no intermediate result is out of range. -/
theorem meet_intersects (ha : a.Canonical) (hb : b.Canonical) :
    (a.meet b = .bottom ↔ ∀ n, ¬ (a.contains n = true ∧ b.contains n = true)) ∧
    (∀ n, a.contains n = true → b.contains n = true → (a.meet b).contains n = true) ∧
    ((∃ c, a = constant c) ∨ (∃ c, b = constant c) ∨ a.LcmFits b →
      (∀ n, (a.meet b).contains n = true ↔ a.contains n = true ∧ b.contains n = true) ∧
        (a.meet b).Canonical) ∧
    (¬ a.LcmFits b → a.meet b = .bottom ∨ a.meet b = top) ∧
    ∀ egcd : Int → Int → ExtendedGcd, (∀ x y, 0 < x → 0 < y → (egcd x y).Correct x y) →
      meetWide egcd a b = some (a.meet b) := by
  refine ⟨meet_eq_bottom_iff ha hb, fun n => contains_meet ha hb, ?_, ?_,
    fun egcd => meetWide_eq ha hb⟩
  · intro hexact
    have hfits : a.LcmFits b := by
      rcases hexact with ha | hb | hfits
      exacts [lcmFits_of_constant (.inl ha), lcmFits_of_constant (.inr hb), hfits]
    refine ⟨fun n => ⟨contains_of_meet ha hb hfits, ?_⟩, canonical_meet ha hb⟩
    exact fun h => contains_meet ha hb h.1 h.2
  · intro hfits
    by_cases hbottom : a.meet b = .bottom
    · exact .inl hbottom
    · exact .inr (meet_eq_top ha hb hfits hbottom)

/-- Moduli with a common divisor, and the two greatest moduli that are words, whose least common
multiple is not one. -/
theorem meet_intersects_greatest :
    (residue 2 4).meet (.residue 0 6) = .residue 6 12 ∧
    (∀ n, (residue 6 12).contains n = true ↔
      (residue 2 4).contains n = true ∧ (residue 0 6).contains n = true) ∧
    meetWide euclid (.residue 2 4) (.residue 0 6) = some (.residue 6 12) ∧
    meetWide euclid (.residue (Word.greatest - 1) Word.greatest) (.residue 0 (Word.greatest - 1)) =
      some top := by
  have hmeet : (residue 2 4).meet (.residue 0 6) = .residue 6 12 := by decide +kernel
  have hforgotten : (residue (Word.greatest - 1) Word.greatest).meet
      (.residue 0 (Word.greatest - 1)) = top := by decide +kernel
  have hsmall := meet_intersects (a := .residue 2 4) (b := .residue 0 6)
    ⟨by decide, by decide, by decide, by decide⟩ ⟨by decide, by decide, by decide, by decide⟩
  have hgreat := meet_intersects (a := .residue (Word.greatest - 1) Word.greatest)
    (b := .residue 0 (Word.greatest - 1)) ⟨by decide, by decide, by decide, by decide⟩
    ⟨by decide, by decide, by decide, by decide⟩
  have hfits : (residue 2 4).LcmFits (.residue 0 6) := (by decide : Word.fits (Int.lcm 4 6) = true)
  refine ⟨hmeet, ?_, ?_, ?_⟩
  · rw [← hmeet]
    exact (hsmall.2.2.1 (.inr (.inr hfits))).1
  · rw [← hmeet]
    exact hsmall.2.2.2.2 euclid fun x y => correct_euclid
  · rw [← hforgotten]
    exact hgreat.2.2.2.2 euclid fun x y => correct_euclid

end Congruence
end StaticAnalysis
