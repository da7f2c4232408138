import StaticAnalysis.Proofs.Numeric.Coverage

/-!
# Exact reduction

Reducing an interval and a congruence class against each other keeps exactly the integers that are
in both, puts the finite ends of what is left into the class, and turns an interval with one value
into a constant of both components.  Reducing the result again changes nothing.

The one exception is at the ends of the word range: a lower end that no word of the class follows
stops at the greatest word, and an upper end that none precedes stops at the least one.
-/

namespace StaticAnalysis

open StaticAnalysis.Interval
namespace IntVal

variable {i : Interval} {g : Congruence} {r : IntVal}

/-! ## Ends -/

variable {c k l u : Int} {b b' b'' : Bound}

lemma raiseLow_saturated (hk : 0 < k) (hb : b.Fits) (h : raiseLow c k b = .ok (.finite l))
    (hl : ¬ k ∣ l - c) :
    l = Word.greatest ∧ ∀ n, Word.fits n → k ∣ n - c → ¬ b ≤ .finite n := by
  have hgreatest := (raiseLow_mem hk hb h).resolve_left hl
  refine ⟨hgreatest, fun n hn hdvd hle => hl ?_⟩
  have hln : Bound.finite l ≤ .finite n := by
    apply raiseLow_le hk h hle (.inl hb)
    intro n' hn'
    cases hn'
    exact .inl hdvd
  rw [Bound.finite_le_finite, hgreatest] at hln
  rwa [hgreatest, le_antisymm hln (Word.le_greatest_of_fits hn)]

lemma lowerHigh_saturated (hk : 0 < k) (hb : b.Fits) (h : lowerHigh c k b = .ok (.finite u))
    (hu : ¬ k ∣ u - c) :
    u = Word.least ∧ ∀ n, Word.fits n → k ∣ n - c → ¬ .finite n ≤ b := by
  have hleast := (lowerHigh_mem hk hb h).resolve_left hu
  refine ⟨hleast, fun n hn hdvd hle => hu ?_⟩
  have hnu : Bound.finite n ≤ .finite u := by
    apply le_lowerHigh hk h hle (.inl hb)
    intro n' hn'
    cases hn'
    exact .inl hdvd
  rw [Bound.finite_le_finite, hleast] at hnu
  rwa [hleast, ← le_antisymm hnu (Word.least_le_of_fits hn)]

lemma ends_of_reduced (hi : i.Proper) (hg : g.Canonical) (h : reduced i g = .ok r) :
    (∀ l, r.interval.low = .finite l → r.congruence.contains l ∨
      l = Word.greatest ∧ ∀ n, Word.fits n → g.contains n → ¬ i.low ≤ .finite n) ∧
    (∀ u, r.interval.high = .finite u → r.congruence.contains u ∨
      u = Word.least ∧ ∀ n, Word.fits n → g.contains n → ¬ .finite n ≤ i.high) ∧
    ∀ n, r.interval.constant? = some n → r.congruence.constant? = some n := by
  rcases reduced_cases hi hg h with rfl | ⟨n, -, -, -, rfl⟩ | ⟨-, hconst, -, rfl⟩ |
    ⟨c, k, low, high, rfl, hk, hlow, hhigh, -, -, hconst, rfl⟩
  · exact ⟨nofun, nofun, nofun⟩
  · have hself : (Congruence.constant n).contains n = true :=
      Congruence.residue_contains.2 (by simp)
    simp only [constant, constant_eq]
    refine ⟨?_, ?_, fun m hm => ?_⟩
    · rintro _ ⟨⟩
      exact .inl hself
    · rintro _ ⟨⟩
      exact .inl hself
    · cases constant?_eq_some.1 hm
      rfl
  · exact ⟨fun _ _ => .inl Congruence.contains_top,
      fun _ _ => .inl Congruence.contains_top, by simp [hconst]⟩
  · simp only [Congruence.residue_contains]
    refine ⟨?_, ?_, by simp [hconst]⟩
    · rintro l rfl
      exact or_iff_not_imp_left.2 (raiseLow_saturated (by omega) hi.low_fits hlow)
    · rintro u rfl
      exact or_iff_not_imp_left.2 (lowerHigh_saturated (by omega) hi.high_fits hhigh)

/-! ## Reducing again -/

lemma raiseLow_idem (hk : 0 < k) (hb : b.Fits) (h : raiseLow c k b = .ok b')
    (h' : raiseLow c k b' = .ok b'') : b'' = b' := by
  have hb' := fits_raiseLow hb h
  apply le_antisymm
  · apply raiseLow_le hk h' le_rfl (.inl hb')
    rintro n rfl
    exact raiseLow_mem hk hb h
  · exact le_raiseLow hk hb' h'

lemma lowerHigh_idem (hk : 0 < k) (hb : b.Fits) (h : lowerHigh c k b = .ok b')
    (h' : lowerHigh c k b' = .ok b'') : b'' = b' := by
  have hb' := fits_lowerHigh hb h
  apply le_antisymm
  · exact lowerHigh_le hk hb' h'
  · apply le_lowerHigh hk h' le_rfl (.inl hb')
    rintro n rfl
    exact lowerHigh_mem hk hb h

lemma reduced_constant (n : Int) : reduced (.constant n) (.constant n) = .ok (constant n) := by
  simp [reduced, Congruence.constant, Interval.contains]

lemma reduced_idem (hi : i.Proper) (hg : g.Canonical) (h : reduced i g = .ok r) {r' : IntVal}
    (h' : reduced r.interval r.congruence = .ok r') : r' = r := by
  rcases reduced_cases hi hg h with rfl | ⟨n, -, -, -, rfl⟩ | ⟨hie, hconst, -, rfl⟩ |
    ⟨c, k, low, high, rfl, hk, hlow, hhigh, hbetween, hie, hconst, rfl⟩
  · cases h'
    rfl
  · rw [constant, reduced_constant] at h'
    cases h'
    rfl
  · rw [reduced_top, ofInterval, hie, hconst] at h'
    cases h'
    rfl
  · obtain ⟨low', high', hlow', hhigh', hr'⟩ := reduced_stride hie hk h'
    have hpos : 0 < k := by omega
    have hlow_eq := raiseLow_idem hpos hi.low_fits hlow hlow'
    have hhigh_eq := lowerHigh_idem hpos hi.high_fits hhigh hhigh'
    rw [hlow_eq, hhigh_eq, hbetween, hie, hconst] at hr'
    exact hr'

/-- Reduction is exact.  The integers of its result are those in the interval and in the class; the
finite ends of the result are in its class, except for a lower end at the greatest word that no word
of the class follows and an upper end at the least word that none precedes; a result whose interval
is one integer is that constant; and a reduced value does not change when it is reduced again. -/
theorem reduced_exact (hi : i.Proper) (hg : g.Canonical) (h : reduced i g = .ok r) :
    (∀ n, r.contains n = true ↔ i.contains n = true ∧ g.contains n = true) ∧
    (∀ l, r.interval.low = .finite l → r.congruence.contains l = true ∨
      l = Word.greatest ∧ ∀ n, Word.fits n = true → g.contains n = true → ¬ i.low ≤ .finite n) ∧
    (∀ u, r.interval.high = .finite u → r.congruence.contains u = true ∨
      u = Word.least ∧ ∀ n, Word.fits n = true → g.contains n = true → ¬ .finite n ≤ i.high) ∧
    (∀ n, r.interval.constant? = some n → r.congruence.constant? = some n) ∧
    ∀ r', reduced r.interval r.congruence = .ok r' → r' = r := by
  obtain ⟨hlow, hhigh, hconst⟩ := ends_of_reduced hi hg h
  exact ⟨fun n => contains_reduced_iff hi hg h, hlow, hhigh, hconst,
    fun r' h' => reduced_idem hi hg h h'⟩

/-- The multiples of four from one to ten are those from four to eight; no even word follows the
greatest word, so a lower end there stays where it is. -/
theorem reduced_exact_greatest :
    (∀ n, (⟨.range 4 8, .residue 0 4⟩ : IntVal).contains n = true ↔
      (Interval.range 1 10).contains n = true ∧ (Congruence.residue 0 4).contains n = true) ∧
    reduced (.atLeast Word.greatest) (.residue 0 2) = .ok ⟨.atLeast Word.greatest, .residue 0 2⟩ ∧
    (Congruence.residue 0 2).contains Word.greatest = false ∧
    ∀ n, Word.fits n = true → (Congruence.residue 0 2).contains n = true →
      ¬ Bound.finite Word.greatest ≤ .finite n := by
  have hfours := reduced_exact (i := .range 1 10) (g := .residue 0 4)
    (proper_between (Bound.fits_finite.2 (by decide)) (Bound.fits_finite.2 (by decide)))
    ⟨by decide, by decide, by decide, by decide⟩
    (by decide : reduced _ _ = .ok ⟨.range 4 8, .residue 0 4⟩)
  have hstays : reduced (.atLeast Word.greatest) (.residue 0 2) =
      .ok ⟨.atLeast Word.greatest, .residue 0 2⟩ := by decide
  have hevens := reduced_exact (g := .residue 0 2) (proper_atLeast (by decide))
    ⟨by decide, by decide, by decide, by decide⟩ hstays
  refine ⟨hfours.1, hstays, by decide, ?_⟩
  rcases hevens.2.1 Word.greatest (by decide) with hmem | ⟨-, hnone⟩
  · exact absurd hmem (by decide)
  · exact hnone

end IntVal
end StaticAnalysis
