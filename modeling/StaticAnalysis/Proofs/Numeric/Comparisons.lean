import StaticAnalysis.Proofs.Numeric.ChineseRemainder
import StaticAnalysis.Proofs.Numeric.Coverage

/-!
# Comparisons of abstract integers

The truth of a comparison of two abstract integers decides it for all of their values, and refining
the first one by a comparison keeps the values for which it holds and brings in no new ones.

A refinement by an order is a meet with the interval of the integers on one side of the other value,
which is never a single integer.  The meet of the classes then gives the class back, so the
refinement is one reduction of a smaller interval by the same class.
-/

namespace StaticAnalysis

open StaticAnalysis.Bound StaticAnalysis.Interval Word

namespace Congruence

lemma ofResidue_of_canonical {c k : Int} (h : (residue c k).Canonical) :
    ofResidue c k = .residue c k := by
  obtain ⟨hc, hfits, hk, hrange⟩ := h
  by_cases hzero : k = 0
  · subst hzero
    exact ofResidue_zero hc
  have hpos := hrange (by omega)
  by_cases hone : k = 1
  · subst hone
    have : c = 0 := by omega
    subst this
    rfl
  · rw [ofResidue_of_fits c (by omega) hfits, Int.emod_eq_of_lt hpos.1 hpos.2]

lemma meet_top {a : Congruence} (ha : a.Canonical) : a.meet top = a := by
  cases a with
  | bottom => rfl
  | residue c k =>
    rcases meet_cases ha canonical_top with ⟨hnone, -⟩ | ⟨x, hx, -, hmeet⟩
    · exact absurd contains_top (hnone c (residue_contains.2 (by simp)))
    · have hlcm : (Int.lcm k 1 : Int) = k := by
        rw [Int.lcm_one_right, Int.natAbs_of_nonneg ha.2.2.1]
      rw [hmeet, modulus, top, modulus, hlcm, ofResidue_congr (residue_contains.1 hx),
        ofResidue_of_canonical ha]

end Congruence

namespace IntVal

variable {a b r : IntVal} {m n : Int}

/-! ## Truth -/

/-- The truth of a comparison is right about every two values, and known for two constants. -/
structure Decides (rel : Int → Int → Prop) (a b : IntVal) (t : Truth) : Prop where
  holds : t = .true → ∀ m n, a.contains m = true → b.contains n = true → rel m n
  fails : t = .false → ∀ m n, a.contains m = true → b.contains n = true → ¬ rel m n
  known : ∀ x y, a = constant x → b = constant y → t ≠ .unknown

lemma decides_of_admits {rel : Int → Int → Prop} [DecidableRel rel] {t : Truth}
    (h : ∀ m n, a.contains m → b.contains n → t.Admits (decide (rel m n)))
    (hknown : ∀ x y, a = constant x → b = constant y → t ≠ .unknown) : Decides rel a b t := by
  refine ⟨?_, ?_, hknown⟩
  · rintro rfl m n hm hn
    by_contra hrel
    have hadmits := h m n hm hn
    rw [decide_eq_false hrel] at hadmits
    rcases hadmits with hadmits | hadmits <;> cases hadmits
  · rintro rfl m n hm hn hrel
    have hadmits := h m n hm hn
    rw [decide_eq_true hrel] at hadmits
    rcases hadmits with hadmits | hadmits <;> cases hadmits

lemma ltTruth_constant_ne_unknown (x y : Int) : (constant x).ltTruth (constant y) ≠ .unknown := by
  have hempty (n : Int) : (constant n).interval.isEmpty = false := (isBottom_eq_false.1 (by simp)).1
  unfold ltTruth
  rw [hempty, hempty, Bool.or_self, if_neg Bool.false_ne_true]
  split
  · simp
  next hlt =>
    have hle : (constant y).interval.high ≤ (constant x).interval.low := by
      simpa [constant, lt_iff_not_le] using hlt
    rw [if_pos hle]
    simp

lemma eqTruth_constant_ne_unknown {x y : Int} {t : Truth}
    (h : (constant x).eqTruth (constant y) = .ok t) : t ≠ .unknown := by
  have hconst (n : Int) : (constant n).constant? = some n := by
    rw [constant?, constant, constant?_eq_some.2 (constant_eq n)]
    rfl
  simp only [eqTruth, isBottom_constant, Bool.or_self, Bool.false_eq_true, if_false, hconst] at h
  cases h
  unfold Truth.ofBool
  split <;> simp

/-! ## Refinement -/

/-- The values of `a` that are in a relation to some value of `b` are in `r`, and `r` has no others
than those of `a`. -/
structure Refines (rel : Int → Int → Prop) (a b r : IntVal) : Prop where
  keeps : ∀ m n, Word.fits m = true → a.contains m = true → b.contains n = true → rel m n →
    r.contains m = true
  subset : ∀ m, r.contains m = true → a.contains m = true

variable {i j : Interval}

lemma isEmpty_meet (hj : j.isEmpty) : (i.meet j).isEmpty := by
  by_contra hne
  rw [Bool.not_eq_true] at hne
  have hbetween := between_of_isEmpty_eq_false hne
  rw [Interval.meet, hbetween, isEmpty_mk_false] at hne
  have hle : j.low ≤ j.high := (le_max_right _ _).trans (hne.trans (min_le_right _ _))
  rw [isEmpty_eq_false.2 hle] at hj
  cases hj

lemma meet_ofInterval (ha : a.congruence.Canonical) (hi : i.constant? = none) :
    a.meet (ofInterval i) = reduced (a.interval.meet i) a.congruence := by
  unfold meet ofInterval
  by_cases hie : i.isEmpty = true
  · rw [if_pos hie]
    simp only [reduced, isEmpty_meet hie, bottom, isEmpty_meet isEmpty_bottom, if_true]
  · rw [if_neg hie, hi]
    dsimp only
    rw [Congruence.meet_top ha]

lemma constant?_between_negInf (h : Bound) : (between .negInf h).constant? = none := by
  unfold between
  split <;> rfl

lemma constant?_between_posInf (l : Bound) : (between l .posInf).constant? = none := by
  unfold between
  split
  · rfl
  · cases l <;> rfl

lemma constant?_below (b : IntVal) : b.below.constant? = none := by
  unfold below
  split
  exacts [constant?_between_negInf _, rfl, rfl]

lemma constant?_above (b : IntVal) : b.above.constant? = none := by
  unfold above
  split
  exacts [constant?_between_posInf _, rfl, rfl]

/-- A meet with an interval that has every value in the relation refines. -/
lemma refines_meet {R : Int → Int → Prop} (ha : a.WellFormed) (hi : i.Proper)
    (hconst : i.constant? = none)
    (hkeeps : ∀ m n, fits m → b.contains n → R m n → i.contains m)
    (h : a.meet (ofInterval i) = .ok r) : Refines R a b r ∧ ∀ m, r.contains m → i.contains m := by
  have hof (m : Int) (hm : r.contains m = true) : a.contains m = true ∧ i.contains m = true := by
    rw [meet_ofInterval ha.congruence hconst] at h
    obtain ⟨hmeet, hclass⟩ := contains_of_reduced (proper_meet ha.interval hi) ha.congruence h hm
    obtain ⟨hai, him⟩ := Interval.contains_meet.1 hmeet
    exact ⟨contains_iff.2 ⟨hai, hclass⟩, him⟩
  refine ⟨⟨fun m n hfits hm hn hrel => ?_, fun m hm => (hof m hm).1⟩, fun m hm => (hof m hm).2⟩
  exact contains_meet_ofInterval ha hi hm (hkeeps m n hfits hn hrel) h

lemma contains_of_trimEnds (hi : i.Proper) (h : (trimEnds n i).contains m) :
    i.contains m ∧ (i.low = .finite n → satAdd n 1 ≤ m) ∧
      (i.high = .finite n → m ≤ satSub n 1) := by
  unfold trimEnds at h
  extract_lets j at h
  -- The lower end goes first; an interval with a value left keeps its upper end.
  have hlow : j.contains m = true →
      i.contains m = true ∧ (i.low = .finite n → satAdd n 1 ≤ m) ∧ j.high = i.high := by
    intro hm
    dsimp only [j] at hm ⊢
    split at hm
    next hl =>
      rw [if_pos hl]
      obtain ⟨hle, hhigh⟩ := contains_between.1 hm
      have hfits := hi.low_fits
      rw [hl] at hfits
      have hup : n ≤ satAdd n 1 := by
        rw [satAdd]
        nth_rewrite 1 [← clamp_of_fits hfits]
        exact clamp_mono (by omega)
      refine ⟨Interval.contains_iff.2 ⟨?_, hhigh⟩, fun _ => finite_le_finite.1 hle, ?_⟩
      · rw [hl, finite_le_finite]
        exact hup.trans (finite_le_finite.1 hle)
      · rw [between_of_isEmpty_eq_false (isEmpty_of_contains hm)]
    next hl =>
      rw [if_neg hl]
      exact ⟨hm, fun h => absurd h hl, rfl⟩
  split at h
  next hh =>
    obtain ⟨hjl, hle⟩ := contains_between.1 h
    rw [finite_le_finite] at hle
    have hj : j.contains m = true := by
      refine Interval.contains_iff.2 ⟨hjl, ?_⟩
      have hfits : Word.fits n = true := by
        have hproper : j.Proper := by
          dsimp only [j]
          split
          exacts [proper_between (fits_clamp _) hi.high_fits, hi]
        have := hproper.high_fits
        rwa [hh] at this
      rw [hh, finite_le_finite, ← clamp_of_fits hfits]
      exact hle.trans (clamp_mono (by omega))
    obtain ⟨hm, hl, -⟩ := hlow hj
    exact ⟨hm, hl, fun _ => hle⟩
  next hh =>
    obtain ⟨hm, hl, heq⟩ := hlow h
    exact ⟨hm, hl, fun hhi => absurd (heq.trans hhi) hh⟩

lemma of_contains_restrictNe (ha : a.WellFormed) (h : a.restrictNe b = .ok r)
    (hm : r.contains m) :
    a.contains m ∧ ∀ n, b.constant? = some n →
      (a.interval.low = .finite n → satAdd n 1 ≤ m) ∧
        (a.interval.high = .finite n → m ≤ satSub n 1) := by
  unfold restrictNe at h
  split at h
  next hn =>
    cases h
    refine ⟨hm, fun n hn' => ?_⟩
    rw [hn] at hn'
    cases hn'
  next n hn =>
    obtain ⟨htrim, hclass⟩ :=
      contains_of_reduced (proper_trimEnds _ ha.interval) ha.congruence h hm
    obtain ⟨hi, hends⟩ := contains_of_trimEnds ha.interval htrim
    refine ⟨contains_iff.2 ⟨hi, hclass⟩, fun n' hn' => ?_⟩
    rw [hn] at hn'
    cases hn'
    exact hends

/-- Nothing is below the least word, so a bound there does not exclude it. -/
lemma lt_high_of_contains_below (hb : b.WellFormed) (h : b.below.contains m)
    (hm : m ≠ least) : .finite m < b.interval.high := by
  unfold below at h
  split at h
  next u hu =>
    have hle := finite_le_finite.1 (contains_between.1 h).2
    have hfits := hb.interval.high_fits
    rw [hu] at hfits
    have hleast := least_le_of_fits hfits
    rw [hu, lt_iff_not_le, finite_le_finite]
    simp only [satSub, clamp] at hle
    omega
  next hu =>
    rw [hu, lt_iff_not_le]
    simp
  next => simp [Interval.contains, Interval.bottom] at h

lemma low_lt_of_contains_above (hb : b.WellFormed) (h : b.above.contains m)
    (hm : m ≠ greatest) : b.interval.low < .finite m := by
  unfold above at h
  split at h
  next l hl =>
    have hle := finite_le_finite.1 (contains_between.1 h).1
    have hfits := hb.interval.low_fits
    rw [hl] at hfits
    have hgreatest := le_greatest_of_fits hfits
    rw [hl, lt_iff_not_le, finite_le_finite]
    simp only [satAdd, clamp] at hle
    omega
  next hl =>
    rw [hl, lt_iff_not_le]
    simp
  next => simp [Interval.contains, Interval.bottom] at h

section Refines

variable (ha : a.WellFormed) (hb : b.WellFormed)
include ha hb

lemma refines_restrictLt (h : a.restrictLt b = .ok r) :
    Refines (· < ·) a b r ∧
      ∀ m, r.contains m → m ≠ least → .finite m < b.interval.high := by
  obtain ⟨hrefines, hbelow⟩ := refines_meet (R := (· < ·)) ha (proper_below b) (constant?_below b)
    (fun m n hfits hn hlt => contains_below hn hlt hfits) h
  exact ⟨hrefines, fun m hm => lt_high_of_contains_below hb (hbelow m hm)⟩

lemma refines_restrictGt (h : a.restrictGt b = .ok r) :
    Refines (· > ·) a b r ∧
      ∀ m, r.contains m → m ≠ greatest → b.interval.low < .finite m := by
  obtain ⟨hrefines, habove⟩ := refines_meet (R := (· > ·)) ha (proper_above b) (constant?_above b)
    (fun m n hfits hn hlt => contains_above hn hlt hfits) h
  exact ⟨hrefines, fun m hm => low_lt_of_contains_above hb (habove m hm)⟩

lemma refines_restrictLe (h : a.restrictLe b = .ok r) :
    Refines (· ≤ ·) a b r ∧ ∀ m, r.contains m → .finite m ≤ b.interval.high := by
  obtain ⟨hrefines, hupTo⟩ := refines_meet (R := (· ≤ ·)) ha
    (proper_between fits_negInf hb.interval.high_fits) (constant?_between_negInf _)
    (fun m n _ => contains_upTo) h
  exact ⟨hrefines, fun m hm => (contains_between.1 (hupTo m hm)).2⟩

lemma refines_restrictGe (h : a.restrictGe b = .ok r) :
    Refines (· ≥ ·) a b r ∧ ∀ m, r.contains m → b.interval.low ≤ .finite m := by
  obtain ⟨hrefines, hfrom⟩ := refines_meet (R := (· ≥ ·)) ha
    (proper_between hb.interval.low_fits fits_posInf) (constant?_between_posInf _)
    (fun m n _ => contains_from) h
  exact ⟨hrefines, fun m hm => (contains_between.1 (hfrom m hm)).1⟩

end Refines

lemma refines_restrictNe (ha : a.WellFormed) (h : a.restrictNe b = .ok r) :
    Refines (· ≠ ·) a b r ∧ ∀ n, b.constant? = some n → r.contains n →
      (a.interval.low = .finite n → n = greatest) ∧
        (a.interval.high = .finite n → n = least) := by
  refine ⟨⟨?_, fun m hm => (of_contains_restrictNe ha h hm).1⟩, ?_⟩
  · intro m n hfits hm hn hne
    exact contains_restrictNe ha hm hn hne hfits h
  · intro n hn hm
    obtain ⟨hlow, hhigh⟩ := (of_contains_restrictNe ha h hm).2 n hn
    constructor
    · intro hl
      have hfits := ha.interval.low_fits
      rw [hl] at hfits
      have hle := hlow hl
      have hword := le_greatest_of_fits hfits
      simp only [satAdd, clamp] at hle
      have := least_le_of_fits hfits
      omega
    · intro hu
      have hfits := ha.interval.high_fits
      rw [hu] at hfits
      have hle := hhigh hu
      have hword := least_le_of_fits hfits
      simp only [satSub, clamp] at hle
      have := le_greatest_of_fits hfits
      omega

/-- Comparisons of abstract integers are sound.  Their truth is right about all values of the
operands and known for constants.  Refining the first operand by a comparison keeps each word for
which it holds with some value of the second, and adds none; what is left respects the bound of the
second operand, except that a strict bound at the end of the word range does not exclude that
end. -/
theorem comparisons_sound (ha : a.WellFormed) (hb : b.WellFormed) :
    (∀ t, a.eqTruth b = .ok t → Decides (· = ·) a b t) ∧
    Decides (· < ·) a b (a.ltTruth b) ∧
    Decides (· ≤ ·) a b (a.leTruth b) ∧
    (∀ r, a.restrictLt b = .ok r → Refines (· < ·) a b r ∧
      ∀ m, r.contains m = true → m ≠ Word.least → .finite m < b.interval.high) ∧
    (∀ r, a.restrictLe b = .ok r → Refines (· ≤ ·) a b r ∧
      ∀ m, r.contains m = true → .finite m ≤ b.interval.high) ∧
    (∀ r, a.restrictGt b = .ok r → Refines (· > ·) a b r ∧
      ∀ m, r.contains m = true → m ≠ Word.greatest → b.interval.low < .finite m) ∧
    (∀ r, a.restrictGe b = .ok r → Refines (· ≥ ·) a b r ∧
      ∀ m, r.contains m = true → b.interval.low ≤ .finite m) ∧
    ∀ r, a.restrictNe b = .ok r → Refines (· ≠ ·) a b r ∧
      ∀ n, b.constant? = some n → r.contains n = true →
        (a.interval.low = .finite n → n = Word.greatest) ∧
          (a.interval.high = .finite n → n = Word.least) := by
  refine ⟨?_, ?_, ?_, fun r => refines_restrictLt ha hb, fun r => refines_restrictLe ha hb,
    fun r => refines_restrictGt ha hb, fun r => refines_restrictGe ha hb,
    fun r => refines_restrictNe ha⟩
  · intro t h
    refine decides_of_admits (fun m n hm hn => admits_eqTruth ha hb hm hn h) ?_
    rintro x y rfl rfl
    exact eqTruth_constant_ne_unknown h
  · refine decides_of_admits (fun m n hm hn => admits_ltTruth hm hn) ?_
    rintro x y rfl rfl
    exact ltTruth_constant_ne_unknown x y
  · refine decides_of_admits (fun m n hm hn => admits_leTruth hm hn) ?_
    rintro x y rfl rfl hle
    apply ltTruth_constant_ne_unknown y x
    unfold leTruth at hle
    cases ht : (constant y).ltTruth (constant x) <;> rw [ht] at hle <;> cases hle

/-- The even words from two to ten are below eleven, those below ten end at eight, and no word is
dropped by a comparison with the least one although none is below it. -/
theorem comparisons_sound_evens :
    (∀ m n, (⟨.range 2 10, .residue 0 2⟩ : IntVal).contains m = true →
      (constant 11).contains n = true → m < n) ∧
    (∀ m, (⟨.range 2 8, .residue 0 2⟩ : IntVal).contains m = true → m ≠ Word.least →
      Bound.finite m < .finite 10) ∧
    (⟨.range 2 8, .residue 0 2⟩ : IntVal).contains 8 = true ∧
    top.restrictLt (constant Word.least) = .ok ⟨.atMost Word.least, .top⟩ ∧
    top.contains Word.least = true := by
  have hrange : (Interval.range 2 10).Proper :=
    Interval.proper_between (fits_finite.2 (by decide)) (fits_finite.2 (by decide))
  have hevens : (⟨.range 2 10, .residue 0 2⟩ : IntVal).WellFormed :=
    ⟨hrange, by decide, by decide, by decide, by decide⟩
  have heleven := comparisons_sound hevens (tight_constant (n := 11) (by decide)).wellFormed
  have hten := comparisons_sound hevens (tight_constant (n := 10) (by decide)).wellFormed
  have hleast := comparisons_sound tight_top.wellFormed
    (tight_constant (n := Word.least) (by decide)).wellFormed
  have hstays : top.restrictLt (constant Word.least) = .ok ⟨.atMost Word.least, .top⟩ := by decide
  have height := hten.2.2.2.1 ⟨.range 2 8, .residue 0 2⟩ (by decide)
  refine ⟨heleven.2.1.holds (by decide), height.2, ?_, hstays, ?_⟩
  · exact height.1.keeps 8 10 (by decide) (by decide) (by decide) (by decide)
  · exact (hleast.2.2.2.1 _ hstays).1.subset _ (by decide)

end IntVal
end StaticAnalysis
