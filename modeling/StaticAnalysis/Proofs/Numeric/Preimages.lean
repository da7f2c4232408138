import StaticAnalysis.Proofs.Numeric.LeastWord

/-!
# Preimages of products and quotients

`mulPreimage` is exact: the words it contains are those whose exact product with the constant lies
between the bounds, and it is empty if there is none.

`divPreimage` covers every word whose quotient lies in the interval, with one exception.  A negative
divisor is negated, and the negation of the least word stops at the greatest word.  The greatest
word and its negation have quotient zero by the least word and one by the greatest, and they are
missed where zero is the end of the interval on their side.
-/

namespace StaticAnalysis

open StaticAnalysis.Bound Word

namespace Word

lemma fits_neg_tdiv {x c : Int} (hx : fits x) (hc : c < 0) (h : fits (x.tdiv c)) :
    fits (-(x.tdiv c)) := by
  apply fits_neg h
  intro hleast
  rcases le_total x 0 with hneg | hpos
  · have hnonneg := Int.tdiv_nonneg_of_nonpos_of_nonpos hneg hc.le
    rw [hleast] at hnonneg
    exact absurd hnonneg (by decide)
  · have hle := Int.natAbs_tdiv_le_natAbs x c
    have hgreatest := le_greatest_of_fits hx
    rw [hleast] at hle
    unfold least greatest at *
    omega

lemma tdiv_greatest {x : Int} (hx : fits x) (h : x.natAbs ≠ greatest.natAbs) :
    x.tdiv greatest = -(x.tdiv least) := by
  by_cases hleast : x = least
  · subst hleast
    decide
  · have hlt : x.natAbs < greatest.natAbs := by
      rw [fits_iff] at hx
      unfold least greatest at *
      omega
    have hlt' : x.natAbs < least.natAbs := hlt.trans (by decide)
    rw [tdiv_eq_zero hlt, tdiv_eq_zero hlt']
    rfl

lemma tdiv_least_of_natAbs_eq {x : Int} (h : x.natAbs = greatest.natAbs) : x.tdiv least = 0 := by
  apply tdiv_eq_zero
  rw [h]
  decide

end Word

namespace Interval

variable {i : Interval} {c x : Int}

lemma exists_word (hp : i.Proper) (hi : i.isEmpty = false) : ∃ x, Word.fits x ∧ i.contains x := by
  have hlow := hp.low_ne hi
  have hhigh := hp.high_ne hi
  have hlh := isEmpty_eq_false.1 hi
  obtain ⟨l, h⟩ := i
  cases l with
  | posInf => exact absurd rfl hlow
  | finite l => exact ⟨l, hp.low_fits, contains_iff.2 ⟨le_rfl, hlh⟩⟩
  | negInf =>
    cases h with
    | negInf => exact absurd rfl hhigh
    | finite h => exact ⟨h, hp.high_fits, contains_iff.2 ⟨hlh, le_rfl⟩⟩
    | posInf => exact ⟨0, by decide, contains_top⟩

/-! ## Products -/

/-- The words in the preimage of a product are those whose product lies between the bounds, and the
preimage is empty exactly if there is no such word. -/
theorem mulPreimage_exact (hi : i.isEmpty = false) (hc : c ≠ 0) :
    (∀ x, Word.fits x = true →
      ((i.mulPreimage c).contains x = true ↔ i.low ≤ .finite (x * c) ∧ .finite (x * c) ≤ i.high)) ∧
    ((i.mulPreimage c).isEmpty = true ↔
      ∀ x, Word.fits x = true → ¬ (i.low ≤ .finite (x * c) ∧ .finite (x * c) ≤ i.high)) := by
  refine ⟨fun x hx => contains_mulPreimage_iff hi hc hx, ?_, ?_⟩
  · intro hempty x hx hbetween
    have hmem := (contains_mulPreimage_iff hi hc hx).2 hbetween
    simp [isEmpty_of_contains hmem] at hempty
  · intro hnone
    by_contra hne
    obtain ⟨x, hx, hmem⟩ := exists_word (proper_mulPreimage i c) (by simpa using hne)
    exact hnone x hx ((contains_mulPreimage_iff hi hc hx).1 hmem)

/-- The least word is the product of no word and `-1`, and of `1` alone and the least word. -/
theorem mulPreimage_exact_least :
    ((constant Word.least).mulPreimage (-1)).isEmpty = true ∧
      ((constant Word.least).mulPreimage Word.least).contains 1 = true ∧
      ((constant Word.least).mulPreimage Word.least).contains 2 = false := by
  have hneg := mulPreimage_exact (i := constant Word.least) (c := -1) (by decide) (by decide)
  have hleast := mulPreimage_exact (i := constant Word.least) (c := Word.least) (by decide)
    (by decide)
  refine ⟨hneg.2.2 ?_, (hleast.1 1 (by decide)).2 (by decide), ?_⟩
  · rintro x hx ⟨hlow, hhigh⟩
    rw [Word.fits_iff] at hx
    rw [constant_eq, Bound.finite_le_finite] at hlow hhigh
    unfold Word.least Word.greatest at *
    omega
  · rw [← Bool.not_eq_true, hleast.1 2 (by decide)]
    decide

/-! ## Quotients -/

/-- The dividend `x` by `c` is a word at the end of the words with quotient zero, and zero is the
end of the interval on its side. -/
def MissesDividend (i : Interval) (c x : Int) : Prop :=
  c = Word.least ∧
    (x = Word.greatest ∧ i.low = .finite 0 ∨ x = -Word.greatest ∧ i.high = .finite 0)

instance (i : Interval) (c x : Int) : Decidable (i.MissesDividend c x) :=
  inferInstanceAs (Decidable (_ ∧ _))

lemma divPreimage_least (hi : i.isEmpty = false) :
    i.divPreimage least = i.neg.divPreimagePos greatest := by
  have hneg : least < 0 := by decide
  rw [divPreimage, if_neg (by simp [hi, hneg.ne]), if_pos hneg]
  rfl

/-- The greatest word and its negation are found by the quotients one and minus one, and by quotient
zero they are just out of reach. -/
lemma contains_greatest_iff (hi : i.contains 0) :
    ((i.divPreimagePos greatest).contains greatest ↔ i.high ≠ .finite 0) ∧
      ((i.divPreimagePos greatest).contains (-greatest) ↔ i.low ≠ .finite 0) := by
  obtain ⟨l, h⟩ := i
  rw [contains_iff] at hi
  simp only [divPreimagePos, contains_between, satSub, satAdd, satMul, clamp, least, greatest]
  cases l <;> cases h <;> simp at hi ⊢ <;> split_ifs <;> simp <;> omega

lemma neg_eq_zero_iff {b : Bound} : b.neg = .finite 0 ↔ b = .finite 0 := by
  cases b with
  | negInf | posInf => simp [Bound.neg]
  | finite n =>
    simp only [Bound.neg, satNeg, clamp, Bound.finite.injEq]
    unfold least greatest
    constructor
    · intro h
      split_ifs at h <;> omega
    · rintro rfl
      rfl

lemma contains_divPreimage_of_ne (hi : i.contains (x.tdiv c)) (hc : c ≠ 0)
    (hleast : c ≠ least) (hx : Word.fits x) (hcf : Word.fits c)
    (hq : Word.fits (x.tdiv c)) : (i.divPreimage c).contains x := by
  rcases lt_or_gt_of_ne hc with hneg | hpos
  · exact contains_divPreimage hc hi hx (Word.fits_neg hcf hleast) (fits_neg_tdiv hx hneg hq)
  · rw [divPreimage, if_neg (by simp [isEmpty_of_contains hi, hc]), if_neg hpos.not_gt]
    exact contains_divPreimagePos hpos hi hx

lemma contains_divPreimage_least_iff (hi : i.contains (x.tdiv least))
    (hx : Word.fits x) (hq : Word.fits (x.tdiv least)) :
    (i.divPreimage least).contains x ↔ ¬ i.MissesDividend least x := by
  rw [divPreimage_least (isEmpty_of_contains hi)]
  by_cases habs : x.natAbs = greatest.natAbs
  · rw [tdiv_least_of_natAbs_eq habs] at hi
    have hneg : i.neg.contains 0 = true := contains_neg hi (by decide)
    have hsign : x = greatest ∨ x = -greatest := by omega
    rcases hsign with rfl | rfl
    · rw [(contains_greatest_iff hneg).1, neg_eq hi, Ne, neg_eq_zero_iff]
      simp [MissesDividend, show greatest ≠ -greatest by decide]
    · rw [(contains_greatest_iff hneg).2, neg_eq hi, Ne, neg_eq_zero_iff]
      simp [MissesDividend, show -greatest ≠ greatest by decide]
  · have hquotient : i.neg.contains (x.tdiv greatest) = true := by
      rw [tdiv_greatest hx habs]
      exact contains_neg hi (fits_neg_tdiv hx (by decide) hq)
    rw [iff_true_left (contains_divPreimagePos (by decide) hquotient hx)]
    rintro ⟨-, ⟨rfl, -⟩ | ⟨rfl, -⟩⟩
    · exact habs rfl
    · exact habs (Int.natAbs_neg _)

/-- Whatever has its quotient in an interval is in the preimage, for every divisor, unless it is
missed at the least word. -/
theorem dividend_found_iff (hi : i.contains (x.tdiv c) = true) (hc : c ≠ 0)
    (hx : Word.fits x = true) (hcf : Word.fits c = true) (hq : Word.fits (x.tdiv c) = true) :
    (i.divPreimage c).contains x = true ↔ ¬ i.MissesDividend c x := by
  by_cases hleast : c = Word.least
  · subst hleast
    exact contains_divPreimage_least_iff hi hx hq
  · rw [iff_true_left (contains_divPreimage_of_ne hi hc hleast hx hcf hq)]
    exact fun hmiss => hleast hmiss.1

/-- Both words have quotient zero by the least word; the interval goes on to one side of zero
only. -/
theorem dividend_found_iff_least :
    ((range (-1) 0).divPreimage Word.least).contains Word.greatest = true ∧
      ((range (-1) 0).divPreimage Word.least).contains (-Word.greatest) = false := by
  have hfound := dividend_found_iff (i := range (-1) 0) (c := Word.least) (x := Word.greatest)
    (by decide) (by decide) (by decide) (by decide) (by decide)
  have hmissed := dividend_found_iff (i := range (-1) 0) (c := Word.least) (x := -Word.greatest)
    (by decide) (by decide) (by decide) (by decide) (by decide)
  refine ⟨hfound.2 (by decide), ?_⟩
  rw [← Bool.not_eq_true, hmissed]
  decide

/-- The greatest word has quotient zero by the least word and is not among the dividends with that
quotient. -/
theorem divPreimage_misses_greatest :
    (constant 0).isEmpty = false ∧ Word.fits Word.least = true ∧ Word.fits Word.greatest = true ∧
      Word.greatest.tdiv Word.least = 0 ∧ (constant 0).contains 0 = true ∧
      ((constant 0).divPreimage Word.least).contains Word.greatest = false := by
  decide

end Interval
end StaticAnalysis
