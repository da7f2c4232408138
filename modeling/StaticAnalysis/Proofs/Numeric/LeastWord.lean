import StaticAnalysis.Proofs.Numeric.Coverage

/-!
# Differences and remainders at the least word

The least word is the only word whose negation is not a word.  A difference of intervals adds the
negated subtrahend, and the limit of a remainder is the magnitude of the divisor; both take a
negation that stops at the greatest word, one short of what is meant.

`Interval.contains_sub_iff` and `Interval.contains_rem_iff` say exactly which members this costs:
differences by the least word of operands at the finite end of their interval, and the greatest
remainders by the least word.  Abstract integers miss what their intervals miss.
-/

namespace StaticAnalysis

open Word StaticAnalysis.Interval StaticAnalysis.Bound

namespace Word

lemma fits_neg {n : Int} (h : fits n) (hn : n ≠ least) : fits (-n) := by
  rw [fits_iff] at h ⊢
  unfold least greatest at *
  omega

lemma tdiv_eq_zero {x c : Int} (h : x.natAbs < c.natAbs) : x.tdiv c = 0 := by
  apply Int.natAbs_eq_zero.1
  rw [Int.natAbs_tdiv]
  exact Nat.div_eq_of_lt h

lemma tmod_eq_self {x c : Int} (h : x.natAbs < c.natAbs) : x.tmod c = x := by
  have heq := Int.mul_tdiv_add_tmod x c
  rw [tdiv_eq_zero h] at heq
  omega

end Word

namespace Bound

lemma neg_le_of_le {b : Bound} {n : Int} (hn : fits n) (h : finite n ≤ b) :
    b.neg ≤ finite (-n) := by
  apply (neg_le_neg h).trans
  apply finite_le_finite.2
  rw [fits_iff] at hn
  unfold satNeg clamp least greatest at *
  split_ifs <;> omega

/-- The upper end of a difference is one too low exactly where both operands are at their end and
the subtrahend is the least word. -/
lemma le_add_neg_iff {a b : Bound} {m n : Int} (hb : b.Fits) (hm : fits m)
    (h : fits (m - n)) (ham : finite m ≤ a) (hbn : b ≤ finite n) :
    finite (m - n) ≤ a.add b.neg ↔ ¬ (n = least ∧ b = finite least ∧ a = finite m) := by
  cases b with
  | posInf => simp at hbn
  | negInf => cases a <;> simp_all [add, neg]
  | finite q =>
    cases a with
    | negInf => simp at ham
    | posInf => simp [add, neg]
    | finite p =>
      rw [finite_le_finite] at ham hbn
      rw [fits_finite, fits_iff] at hb
      rw [fits_iff] at hm h
      simp only [add, neg, satAdd, satNeg, finite_le_finite, finite.injEq]
      unfold clamp least greatest at *
      constructor
      · rintro hle ⟨rfl, rfl, rfl⟩
        split_ifs at hle <;> omega
      · intro hne
        split_ifs <;> omega

end Bound

namespace Interval

variable {i j : Interval} {m n : Int}

/-! ## Differences -/

lemma neg_eq (hj : j.contains n) : j.neg = ⟨j.high.neg, j.low.neg⟩ := by
  have hje := isEmpty_of_contains hj
  obtain ⟨hl, hh⟩ := contains_iff.1 hj
  rw [neg, if_neg (by simp [hje])]
  apply between_eq (neg_le_neg (hl.trans hh))
  · cases hhigh : j.high <;> simp_all [Bound.neg]
  · cases hlow : j.low <;> simp_all [Bound.neg]

/-- The difference of `m` in `i` and `n` in `j` is one above the upper end of the difference of the
intervals. -/
def MissesDifference (i j : Interval) (m n : Int) : Prop :=
  n = Word.least ∧ j.low = .finite Word.least ∧ i.high = .finite m

instance (i j : Interval) (m n : Int) : Decidable (i.MissesDifference j m n) :=
  inferInstanceAs (Decidable (_ ∧ _))

lemma contains_sub_iff (hj : j.Proper) (hm : i.contains m) (hn : j.contains n)
    (hmf : fits m) (hnf : fits n) (h : fits (m - n)) :
    (i.sub j).contains (m - n) ↔ ¬ i.MissesDifference j m n := by
  have hie := isEmpty_of_contains hm
  have hje : j.neg.isEmpty = false := by
    obtain ⟨hl, hh⟩ := contains_iff.1 hn
    rw [neg_eq hn]
    exact isEmpty_mk_false.2 (neg_le_neg (hl.trans hh))
  rw [sub, add, if_neg (by simp [hie, hje]), contains_between, neg_eq hn]
  rw [contains_iff] at hm hn
  have hlow : i.low.add j.high.neg ≤ .finite (m - n) :=
    add_le_of_le hm.1 (neg_le_of_le hnf hn.2) h
  rw [and_iff_right hlow]
  exact le_add_neg_iff hj.low_fits hmf h hm.2 hn.1

/-! ## Remainders -/

/-- The remainder of `m` in `i` by the least word, in `j`, is at the limit that a finite range of
divisors sets. -/
def MissesRemainder (i j : Interval) (m n : Int) : Prop :=
  n = Word.least ∧ m.natAbs = Word.greatest.natAbs ∧ j.low = .finite Word.least ∧ j.high ≠ .posInf ∧
    ¬ (i.constant? = some m ∧ j.constant? = some n)

instance (i j : Interval) (m n : Int) : Decidable (i.MissesRemainder j m n) :=
  inferInstanceAs (Decidable (_ ∧ _))

lemma magnitude_of_least (hj : j.Proper) (hlow : j.low = .finite least)
    (hhigh : j.high ≠ .posInf) : max j.low.neg j.high = .finite greatest := by
  have hneg : j.low.neg = .finite greatest := by
    rw [hlow]
    rfl
  rw [hneg]
  apply max_eq_left
  have hfits := hj.high_fits
  cases hh : j.high with
  | negInf => exact negInf_le _
  | posInf => exact absurd hh hhigh
  | finite h =>
    rw [hh] at hfits
    exact Bound.finite_le_finite.2 (le_greatest_of_fits hfits)

lemma not_contains_remWithin (hi : i.contains m) (hm : m.natAbs = greatest.natAbs) :
    (i.remWithin (.finite (greatest - 1))).contains m = false := by
  rw [contains_iff] at hi
  rw [← Bool.not_eq_true, remWithin, contains_between]
  rintro ⟨hlow, hhigh⟩
  have hsign : m = greatest ∨ m = -greatest := by omega
  rcases hsign with rfl | rfl
  · split at hhigh
    · exact absurd hhigh (by decide)
    · exact absurd (hhigh.trans (min_le_right _ _)) (by decide)
  · split at hlow
    · exact absurd hlow (by decide)
    · exact absurd ((le_max_right _ _).trans hlow) (by decide)

lemma not_contains_rem (hj : j.Proper) (hm : i.contains m) (hn : j.contains n)
    (h : i.MissesRemainder j m n) : (i.rem j).contains (m.tmod n) = false := by
  obtain ⟨rfl, habs, hlow, hhigh, hconst⟩ := h
  have hie := isEmpty_of_contains hm
  have hje := isEmpty_of_contains hn
  have htmod : m.tmod least = m := by
    apply tmod_eq_self
    rw [habs]
    decide
  unfold rem
  rw [if_neg (by simp [hie, hje]), magnitude_of_least hj hlow hhigh, htmod]
  dsimp only
  rw [if_pos (by decide)]
  split
  next x c hx hc =>
    cases eq_of_constant? hx hm
    cases eq_of_constant? hc hn
    exact absurd ⟨hx, hc⟩ hconst
  next => exact not_contains_remWithin hm habs

lemma contains_rem_iff (hj : j.Proper) (hm : i.contains m) (hn : j.contains n)
    (hzero : n ≠ 0) (hmf : fits m) (hnf : fits n) :
    (i.rem j).contains (m.tmod n) ↔ ¬ i.MissesRemainder j m n := by
  constructor
  · intro h hmiss
    simp [not_contains_rem hj hm hn hmiss] at h
  intro hmiss
  by_cases hleast : n = least
  · subst hleast
    apply contains_rem_of_limit hm hn hzero hmf
    intro d hd
    have hlow : j.low = .finite least := by
      have hle := (contains_iff.1 hn).1
      have hfits := hj.low_fits
      cases hl : j.low with
      | negInf =>
        rw [hl] at hd
        have : Bound.posInf ≤ .finite d := hd ▸ le_max_left _ _
        simp at this
      | posInf => simp [hl] at hle
      | finite q =>
        rw [hl] at hle hfits
        have := least_le_of_fits hfits
        rw [le_antisymm (Bound.finite_le_finite.1 hle) this]
    have hhigh : j.high ≠ .posInf := by
      intro hh
      rw [hh] at hd
      have : Bound.posInf ≤ .finite d := hd ▸ le_max_right _ _
      simp at this
    cases (magnitude_of_least hj hlow hhigh).symm.trans hd
    refine ⟨by decide, ?_⟩
    by_cases hconst : i.constant? = some m ∧ j.constant? = some least
    · exact .inr hconst
    · left
      have hne : m.natAbs ≠ greatest.natAbs := fun habs =>
        hmiss ⟨rfl, habs, hlow, hhigh, hconst⟩
      -- Only the least word itself is farther from zero than the limit, and it divides itself.
      by_cases hm' : m = least
      · rw [hm']
        decide
      · rw [fits_iff] at hmf
        have hlt : m.natAbs < least.natAbs := by
          unfold least greatest at *
          omega
        rw [tmod_eq_self hlt]
        unfold least greatest at *
        omega
  · exact contains_rem hm hn hzero hmf (Word.fits_neg hnf hleast)

end Interval

namespace IntVal

variable {a b r : IntVal} {m n : Int}

lemma contains_sub_iff (hb : b.WellFormed) (hm : a.contains m) (hn : b.contains n)
    (hmf : fits m) (hnf : fits n) (hfits : fits (m - n))
    (h : a.sub b = .ok r) :
    r.contains (m - n) ↔ ¬ a.interval.MissesDifference b.interval m n := by
  rw [contains_iff] at hm hn
  rw [← Interval.contains_sub_iff hb.interval hm.1 hn.1 hmf hnf hfits,
    contains_reduced_iff (proper_sub _ _) (Congruence.canonical_sub _ _) h]
  exact and_iff_left (Congruence.contains_sub hm.2 hn.2)

lemma contains_rem_iff (ha : a.WellFormed) (hb : b.WellFormed) (hm : a.contains m)
    (hn : b.contains n) (hzero : n ≠ 0) (hmf : fits m) (hnf : fits n)
    (h : a.rem b = .ok r) :
    r.contains (m.tmod n) ↔ ¬ a.interval.MissesRemainder b.interval m n := by
  rw [contains_iff] at hm hn
  rw [← Interval.contains_rem_iff hb.interval hm.1 hn.1 hzero hmf hnf,
    contains_reduced_iff (proper_rem ha.interval hb.interval) (Congruence.canonical_rem _ _) h]
  exact and_iff_left (Congruence.contains_rem hm.2 hn.2 hzero)

/-- The remainder of two words, for a divisor other than zero, is in the remainder of the intervals
and of the abstract integers that they are in, exactly if it is not missed at the least word.  The
remainder of abstract integers is there exactly if its ends can be rounded to its class.  The
remainder of the least word by `-1` is zero. -/
theorem remainder_found_iff (hmf : Word.fits m = true) (hnf : Word.fits n = true) (hzero : n ≠ 0) :
    (∀ i j : Interval, j.Proper → i.contains m = true → j.contains n = true →
      ((i.rem j).contains (m.tmod n) = true ↔ ¬ i.MissesRemainder j m n)) ∧
    ∀ a b : IntVal, a.WellFormed → b.WellFormed → a.contains m = true → b.contains n = true →
      ((∃ r, a.rem b = .ok r) ↔
        Roundable (a.interval.rem b.interval) (a.congruence.rem b.congruence)) ∧
      ∀ r, a.rem b = .ok r →
        (r.contains (m.tmod n) = true ↔ ¬ a.interval.MissesRemainder b.interval m n) := by
  refine ⟨?_, ?_⟩
  · intro i j hj him hjn
    exact Interval.contains_rem_iff hj him hjn hzero hmf hnf
  · intro a b ha hb ham hbn
    exact ⟨exists_reduced_iff, fun r h => contains_rem_iff ha hb ham hbn hzero hmf hnf h⟩

/-- Of the remainders by the least word, only the greatest is out of reach. -/
theorem remainder_found_iff_least :
    ((Interval.range 0 Word.greatest).rem (.constant Word.least)).contains
    (Word.greatest - 1) = true ∧
    (∃ r, (range 0 Word.greatest).rem (constant Word.least) = .ok r ∧
      r.contains (Word.greatest - 1) = true) ∧
    ((Interval.range 0 Word.greatest).rem (.constant Word.least)).contains
      Word.greatest = false := by
  have hleast : (Interval.constant Word.least).Proper := proper_constant (by decide)
  have hfound := remainder_found_iff (m := Word.greatest - 1) (n := Word.least) (by decide)
    (by decide) (by decide)
  have hmissed := remainder_found_iff (m := Word.greatest) (n := Word.least) (by decide) (by decide)
    (by decide)
  have hrange : (range 0 Word.greatest).WellFormed :=
    (tight_ofInterval (proper_between (Bound.fits_finite.2 (by decide))
      (Bound.fits_finite.2 (by decide)))).wellFormed
  refine ⟨(hfound.1 _ _ hleast (by decide) (by decide)).2 (by decide), ⟨_, rfl, ?_⟩, ?_⟩
  · have hiff := hfound.2 _ (constant Word.least) hrange (tight_constant (by decide)).wellFormed
      (by decide) (by decide)
    exact (hiff.2 _ rfl).2 (by decide)
  · rw [← Bool.not_eq_true]
    have hiff := hmissed.1 (.range 0 Word.greatest) _ hleast (by decide) (by decide)
    exact fun hcontains => hiff.1 hcontains (by decide)

/-- The greatest word is its own remainder by the least word, and is in neither remainder. -/
theorem rem_misses_greatest :
    Word.greatest.tmod Word.least = Word.greatest ∧
    (Interval.range 0 Word.greatest).contains Word.greatest = true ∧
    (Interval.constant Word.least).contains Word.least = true ∧
    ((Interval.range 0 Word.greatest).rem (.constant Word.least)).contains Word.greatest = false ∧
    ∃ r, (range 0 Word.greatest).rem (constant Word.least) = .ok r ∧
      r.contains Word.greatest = false :=
  ⟨by decide, by decide, by decide, by decide, _, rfl, by decide⟩

end IntVal
end StaticAnalysis
