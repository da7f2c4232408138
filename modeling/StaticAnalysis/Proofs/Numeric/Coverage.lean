import StaticAnalysis.Proofs.Numeric.Membership

/-!
# Members of abstract integers

Arithmetic on abstract integers covers the exact results on members of the operands, the truth of a
comparison admits its exact outcome, and refining an operand by a comparison that holds keeps the
member for which it holds.  All of it comes down to the components: reduction loses no member.
-/

namespace StaticAnalysis

open StaticAnalysis.Bound StaticAnalysis.Interval Word

/-- A condition may have this outcome. -/
def Truth.Admits (t : Truth) (b : Bool) : Prop := t = .unknown ∨ t = .ofBool b

namespace Truth

variable {t u : Truth} {x y : Bool}

lemma admits_unknown (b : Bool) : Truth.unknown.Admits b := .inl rfl

lemma admits_not (h : t.Admits x) : t.not.Admits !x := by
  rcases h with rfl | rfl
  · exact admits_unknown _
  · cases x <;> exact .inr rfl

lemma admits_and_left (h : t.Admits Bool.false) (u : Truth) : (t.and u).Admits Bool.false := by
  rcases h with rfl | rfl <;> cases u <;> simp [Admits, and, ofBool]

lemma admits_and_right (h : u.Admits Bool.false) (t : Truth) : (t.and u).Admits Bool.false := by
  rcases h with rfl | rfl <;> cases t <;> simp [Admits, and, ofBool]

lemma admits_and (ht : t.Admits Bool.true) (hu : u.Admits Bool.true) :
    (t.and u).Admits Bool.true := by
  rcases ht with rfl | rfl <;> rcases hu with rfl | rfl <;> simp [Admits, and, ofBool]

end Truth

namespace IntVal

variable {a b r : IntVal} {m n : Int}

lemma contains_iff : a.contains n ↔ a.interval.contains n ∧ a.congruence.contains n := by
  simp [contains]

lemma contains_top : top.contains n :=
  contains_iff.2 ⟨Interval.contains_top, Congruence.contains_top⟩

lemma contains_constant : (constant m).contains n ↔ n = m := by
  rw [contains_iff]
  refine ⟨fun h => Interval.contains_constant.1 h.1, ?_⟩
  rintro rfl
  exact ⟨Interval.contains_constant.2 rfl, Congruence.residue_contains.2 (by simp)⟩

lemma isBottom_of_contains (h : a.contains n) : a.isBottom = false := by
  obtain ⟨hi, hg⟩ := contains_iff.1 h
  refine isBottom_eq_false.2 ⟨isEmpty_of_contains hi, fun hb => ?_⟩
  simp [hb, Congruence.contains] at hg

lemma contains_of_le (h : a.le b) (hn : a.contains n) : b.contains n := by
  obtain ⟨hi, hg⟩ := le_iff.1 h (isBottom_of_contains hn)
  rw [contains_iff] at hn ⊢
  exact ⟨Interval.contains_of_le hi hn.1, Congruence.contains_of_le hg hn.2⟩

lemma eq_of_constant? (h : a.constant? = some m) (hn : a.contains n) : n = m := by
  rw [contains_iff] at hn
  unfold constant? at h
  cases hi : a.interval.constant? with
  | some l =>
    rw [hi] at h
    cases h
    exact Interval.eq_of_constant? hi hn.1
  | none =>
    rw [hi] at h
    exact Congruence.eq_of_constant? h hn.2

variable {i : Interval} {g : Congruence} {t : Truth}

lemma contains_reduced (hp : i.Proper) (hi : i.contains n) (hg : g.contains n)
    (h : reduced i g = .ok r) : r.contains n := by
  have hie := isEmpty_of_contains hi
  obtain ⟨c, k, rfl, hdvd⟩ := Congruence.exists_residue_of_contains hg
  rcases eq_or_ne k 0 with rfl | hk
  · rw [zero_dvd_iff, sub_eq_zero] at hdvd
    subst hdvd
    simp only [reduced, hie, hi, if_true, if_false, Bool.false_eq_true] at h
    cases h
    exact contains_constant.2 rfl
  by_cases hk' : 1 < k
  · obtain ⟨low, high, hlow, hhigh, rfl⟩ := reduced_stride hie hk' h
    have hpos : 0 < k := by omega
    have hclass (m : Int) (hm : Bound.finite n = .finite m) : k ∣ m - c :=
      Bound.finite.inj hm ▸ hdvd
    obtain ⟨hl, hh⟩ := Interval.contains_iff.1 hi
    have hmem : (between low high).contains n = true := contains_between.2
      ⟨raiseLow_le hpos hlow hl (.inl hp.low_fits) fun m hm => .inl (hclass m hm),
        le_lowerHigh hpos hhigh hh (.inl hp.high_fits) fun m hm => .inl (hclass m hm)⟩
    rw [if_neg (by simp [isEmpty_of_contains hmem])]
    split
    next hconst => exact contains_constant.2 (Interval.eq_of_constant? hconst hmem)
    next => exact contains_iff.2 ⟨hmem, hg⟩
  · rcases reduced_unit hie hk hk' h with ⟨l, hconst, rfl⟩ | ⟨-, rfl⟩
    · exact contains_constant.2 (Interval.eq_of_constant? hconst hi)
    · exact contains_iff.2 ⟨hi, hg⟩

lemma contains_of_reduced (hp : i.Proper) (hg : g.Canonical) (h : reduced i g = .ok r)
    (hn : r.contains n) : i.contains n ∧ g.contains n := by
  rcases reduced_cases hp hg h with rfl | ⟨m, -, hi, hg, rfl⟩ | ⟨-, -, rfl, rfl⟩ |
    ⟨c, k, low, high, rfl, hk, hlow, hhigh, -, -, -, rfl⟩
  · cases hn
  · cases contains_constant.1 hn
    exact ⟨hi, hg⟩
  · exact contains_iff.1 hn
  · obtain ⟨hj, hgn⟩ := contains_iff.1 hn
    obtain ⟨hl, hh⟩ := Interval.contains_iff.1 hj
    refine ⟨Interval.contains_iff.2 ⟨?_, ?_⟩, hgn⟩
    · exact (le_raiseLow (by omega) hp.low_fits hlow).trans hl
    · exact hh.trans (lowerHigh_le (by omega) hp.high_fits hhigh)

lemma contains_reduced_iff (hp : i.Proper) (hg : g.Canonical) (h : reduced i g = .ok r) :
    r.contains n ↔ i.contains n ∧ g.contains n :=
  ⟨contains_of_reduced hp hg h, fun hn => contains_reduced hp hn.1 hn.2 h⟩

lemma contains_ofInterval : (ofInterval i).contains n ↔ i.contains n := by
  constructor
  · intro h
    unfold ofInterval at h
    split at h
    · simp [contains, bottom, Interval.contains, Interval.bottom, isEmpty] at h
    split at h
    next l hl =>
      cases contains_constant.1 h
      exact contains_of_constant? hl
    next => exact (contains_iff.1 h).1
  · intro h
    unfold ofInterval
    rw [if_neg (by simp [isEmpty_of_contains h])]
    split
    next l hl => exact contains_constant.2 (Interval.eq_of_constant? hl h)
    next => exact contains_iff.2 ⟨h, Congruence.contains_top⟩

lemma contains_restrict {d : DomainSet} (ha : a.WellFormed) (hn : a.contains n)
    (h : a.restrict d = .ok r) : r.contains n := by
  have hcomponents := contains_iff.1 hn
  rcases restrict_cases h with ⟨hab, -⟩ | ⟨-, m, hm, rfl⟩ | ⟨-, h⟩
  · simp [isBottom_of_contains hn] at hab
  · exact contains_constant.2 (eq_of_constant? hm hn)
  refine contains_reduced ?_ ?_ ?_ h
  · split
    exacts [ha.interval, proper_top]
  · split
    exacts [hcomponents.1, Interval.contains_top]
  · split
    exacts [hcomponents.2, Congruence.contains_top]

/-! ## Arithmetic -/

lemma contains_neg (hn : a.contains n) (hneg : fits (-n)) (h : a.neg = .ok r) :
    r.contains (-n) := by
  rw [contains_iff] at hn
  exact contains_reduced (proper_neg _) (Interval.contains_neg hn.1 hneg)
    (Congruence.contains_neg hn.2) h

section

variable (hm : a.contains m) (hn : b.contains n)
include hm hn

lemma contains_add (hfits : fits (m + n)) (h : a.add b = .ok r) : r.contains (m + n) := by
  rw [contains_iff] at hm hn
  exact contains_reduced (proper_add _ _) (contains_add hm.1 hn.1 hfits)
    (Congruence.contains_add hm.2 hn.2) h

lemma contains_sub (hneg : fits (-n)) (hfits : fits (m - n)) (h : a.sub b = .ok r) :
    r.contains (m - n) := by
  rw [contains_iff] at hm hn
  exact contains_reduced (proper_sub _ _) (contains_sub hm.1 hn.1 hneg hfits)
    (Congruence.contains_sub hm.2 hn.2) h

lemma contains_mul (hfits : fits (m * n)) (h : a.mul b = .ok r) : r.contains (m * n) := by
  rw [contains_iff] at hm hn
  exact contains_reduced (proper_mul _ _) (contains_mul hm.1 hn.1 hfits)
    (Congruence.contains_mul hm.2 hn.2) h

end

lemma contains_div (ha : a.WellFormed) (hm : a.contains m) (hn : b.contains n)
    (hzero : n ≠ 0) (hmfits : fits m) (hfits : fits (m.tdiv n))
    (h : a.div b = .ok r) : r.contains (m.tdiv n) := by
  rw [contains_iff] at hm hn
  exact contains_reduced (proper_div _ _)
    (Interval.contains_div ha.interval hm.1 hn.1 hzero hmfits hfits)
    (Congruence.contains_div hm.2 hn.2 hzero) h

/-- Sums, products, opposites and truncated quotients of members are members of the results,
wherever they are words: the ends of the operands may be infinite or the ends of the word range, and
a divisor may lie on both sides of zero. -/
theorem contains_arithmetic (ha : a.WellFormed) (hm : a.contains m = true)
    (hn : b.contains n = true) (hword : Word.fits m = true) :
    (∀ r, a.add b = .ok r → Word.fits (m + n) = true → r.contains (m + n) = true) ∧
    (∀ r, a.mul b = .ok r → Word.fits (m * n) = true → r.contains (m * n) = true) ∧
    (∀ r, a.neg = .ok r → Word.fits (-m) = true → r.contains (-m) = true) ∧
    ∀ r, a.div b = .ok r → n ≠ 0 → Word.fits (m.tdiv n) = true → r.contains (m.tdiv n) = true :=
  ⟨fun _ h hfits => contains_add hm hn hfits h, fun _ h hfits => contains_mul hm hn hfits h,
    fun _ h hfits => contains_neg hm hfits h,
    fun _ h hzero hfits => contains_div ha hm hn hzero hword hfits h⟩

/-- The least odd word and a divisor on both sides of zero. -/
theorem contains_arithmetic_least :
    (∃ r, (⟨⟨.finite Word.least, .posInf⟩, .residue 1 2⟩ : IntVal).add
        ⟨⟨.finite (-3), .finite 4⟩, .top⟩ = .ok r ∧ r.contains Word.least = true) ∧
    (∃ r, (⟨⟨.finite Word.least, .posInf⟩, .residue 1 2⟩ : IntVal).mul
        ⟨⟨.finite (-3), .finite 4⟩, .top⟩ = .ok r ∧ r.contains Word.greatest = true) ∧
    (∃ r, (⟨⟨.finite Word.least, .posInf⟩, .residue 1 2⟩ : IntVal).neg = .ok r ∧
      r.contains Word.greatest = true) ∧
    ∃ r, (⟨⟨.finite Word.least, .posInf⟩, .residue 1 2⟩ : IntVal).div
        ⟨⟨.finite (-3), .finite 4⟩, .top⟩ = .ok r ∧ r.contains Word.greatest = true := by
  have hodd : (⟨⟨.finite Word.least, .posInf⟩, .residue 1 2⟩ : IntVal).WellFormed :=
    ⟨⟨Bound.fits_finite.2 (by decide), trivial, by decide, by decide⟩, by decide, by decide, by decide,
      by decide⟩
  have h := contains_arithmetic (b := ⟨⟨.finite (-3), .finite 4⟩, .top⟩) (m := Word.least + 1)
    (n := -1) hodd (by decide) (by decide) (by decide)
  exact ⟨⟨_, rfl, h.1 _ rfl (by decide)⟩, ⟨_, rfl, h.2.1 _ rfl (by decide)⟩,
    ⟨_, rfl, h.2.2.1 _ rfl (by decide)⟩, ⟨_, rfl, h.2.2.2 _ rfl (by decide) (by decide)⟩⟩

section

variable (ha : a.WellFormed) (hb : b.WellFormed)
include ha hb

lemma contains_rem (hm : a.contains m) (hn : b.contains n) (hzero : n ≠ 0) (hmfits : fits m)
    (hneg : fits (-n)) (h : a.rem b = .ok r) : r.contains (m.tmod n) := by
  rw [contains_iff] at hm hn
  exact contains_reduced (proper_rem ha.interval hb.interval)
    (Interval.contains_rem hm.1 hn.1 hzero hmfits hneg) (Congruence.contains_rem hm.2 hn.2 hzero) h

lemma contains_meet (hna : a.contains n)
    (hnb : b.contains n) (h : a.meet b = .ok r) : r.contains n := by
  rw [contains_iff] at hna hnb
  exact contains_reduced (proper_meet ha.interval hb.interval)
    (Interval.contains_meet.2 ⟨hna.1, hnb.1⟩)
    (Congruence.contains_meet ha.congruence hb.congruence hna.2 hnb.2) h

lemma contains_join_left (hn : a.contains n) (h : a.join b = .ok r) : r.contains n := by
  unfold join at h
  rw [if_neg (by simp [isBottom_of_contains hn])] at h
  split at h
  · cases h
    exact hn
  · rw [contains_iff] at hn
    exact contains_reduced (proper_join ha.interval hb.interval)
      (Interval.contains_of_le (Interval.le_join_left _ _) hn.1)
      (Congruence.contains_of_le (Congruence.le_join_left _ _) hn.2) h

lemma contains_join_right (hn : b.contains n) (h : a.join b = .ok r) : r.contains n := by
  cases hab : a.isBottom with
  | true =>
    rw [join, if_pos hab] at h
    cases h
    exact hn
  | false =>
    rw [join_comm hab (isBottom_of_contains hn)] at h
    exact contains_join_left hb ha hn h

lemma contains_narrow (hna : a.contains n)
    (hnb : b.contains n) (h : a.narrow b = .ok r) : r.contains n := by
  rw [contains_iff] at hna hnb
  exact contains_reduced (proper_narrow ha.interval hb.interval)
    (Interval.contains_narrow hna.1 hnb.1) (Congruence.contains_narrow hna.2 hnb.2) h

end

/-! ## Comparisons -/

lemma contains_ofTruth {x : Bool} (h : t.Admits x) : (ofTruth t).contains (if x then 1 else 0) := by
  rcases h with rfl | rfl
  · cases x <;> decide
  · cases x <;> decide

lemma admits_eqTruth (ha : a.WellFormed) (hb : b.WellFormed) (hm : a.contains m)
    (hn : b.contains n) (h : a.eqTruth b = .ok t) : t.Admits (m == n) := by
  unfold eqTruth at h
  rw [if_neg (by simp [isBottom_of_contains hm, isBottom_of_contains hn])] at h
  split at h
  next x y hx hy =>
    cases h
    cases eq_of_constant? hx hm
    cases eq_of_constant? hy hn
    exact .inr rfl
  next =>
    obtain ⟨both, hboth, h⟩ := Fault.bind_eq_ok.1 h
    cases h
    split
    next hbottom =>
      have hne : m ≠ n := by
        rintro rfl
        simp [isBottom_of_contains (contains_meet ha hb hm hn hboth)] at hbottom
      rw [beq_eq_false_iff_ne.2 hne]
      exact .inr rfl
    next => exact .inl rfl

lemma admits_ltTruth (hm : a.contains m) (hn : b.contains n) :
    (a.ltTruth b).Admits (decide (m < n)) := by
  obtain ⟨hm, -⟩ := contains_iff.1 hm
  obtain ⟨hn, -⟩ := contains_iff.1 hn
  have hie := isEmpty_of_contains hm
  have hje := isEmpty_of_contains hn
  rw [Interval.contains_iff] at hm hn
  unfold ltTruth
  rw [if_neg (by simp [hie, hje])]
  split
  next hlt =>
    have hmn : m < n := by
      have := (hm.2.trans_lt hlt).trans_le hn.1
      rwa [← not_le, finite_le_finite, not_le] at this
    exact .inr (by simp [hmn, Truth.ofBool])
  split
  next hle =>
    have : n ≤ m := finite_le_finite.1 ((hn.2.trans hle).trans hm.1)
    exact .inr (by simp [this, Truth.ofBool])
  next => exact .inl rfl

lemma admits_leTruth (hm : a.contains m) (hn : b.contains n) :
    (a.leTruth b).Admits (decide (m ≤ n)) := by
  have h := Truth.admits_not (admits_ltTruth hn hm)
  have hdual : (!decide (n < m)) = decide (m ≤ n) := by
    rw [← decide_not]
    exact decide_eq_decide.2 not_lt
  rwa [hdual] at h

/-! ## Refinement by a comparison -/

section

variable (hn : b.contains n)
include hn

lemma contains_below (hlt : m < n) (hfits : fits m) : b.below.contains m := by
  have hb := (Interval.contains_iff.1 (contains_iff.1 hn).1).2
  unfold below
  split
  next u hu =>
    rw [hu, finite_le_finite] at hb
    rw [contains_atMost, ← clamp_of_fits hfits]
    exact clamp_mono (by omega)
  next => exact Interval.contains_top
  next hu => simp [hu] at hb

lemma contains_above (hlt : n < m) (hfits : fits m) : b.above.contains m := by
  have hb := (Interval.contains_iff.1 (contains_iff.1 hn).1).1
  unfold above
  split
  next l hl =>
    rw [hl, finite_le_finite] at hb
    rw [contains_atLeast, ← clamp_of_fits hfits]
    exact clamp_mono (by omega)
  next => exact Interval.contains_top
  next hl => simp [hl] at hb

lemma contains_upTo (hle : m ≤ n) : (between .negInf b.interval.high).contains m := by
  have hhigh := (Interval.contains_iff.1 (contains_iff.1 hn).1).2
  exact contains_between.2 ⟨negInf_le _, (finite_le_finite.2 hle).trans hhigh⟩

lemma contains_from (hle : n ≤ m) : (between b.interval.low .posInf).contains m := by
  have hlow := (Interval.contains_iff.1 (contains_iff.1 hn).1).1
  exact contains_between.2 ⟨hlow.trans (finite_le_finite.2 hle), le_posInf _⟩

end

section

variable (ha : a.WellFormed)
include ha

lemma contains_meet_ofInterval (hi : i.Proper) (hm : a.contains m)
    (him : i.contains m) (h : a.meet (ofInterval i) = .ok r) : r.contains m :=
  contains_meet ha (tight_ofInterval hi).wellFormed hm (contains_ofInterval.2 him) h

lemma contains_restrictLt (hm : a.contains m) (hn : b.contains n)
    (hlt : m < n) (hfits : fits m) (h : a.restrictLt b = .ok r) : r.contains m :=
  contains_meet_ofInterval ha (proper_below b) hm (contains_below hn hlt hfits) h

lemma contains_restrictGt (hm : a.contains m) (hn : b.contains n)
    (hlt : n < m) (hfits : fits m) (h : a.restrictGt b = .ok r) : r.contains m :=
  contains_meet_ofInterval ha (proper_above b) hm (contains_above hn hlt hfits) h

lemma contains_restrictLe (hb : b.WellFormed) (hm : a.contains m)
    (hn : b.contains n) (hle : m ≤ n) (h : a.restrictLe b = .ok r) : r.contains m :=
  contains_meet_ofInterval ha (proper_between fits_negInf hb.interval.high_fits) hm
    (contains_upTo hn hle) h

lemma contains_restrictGe (hb : b.WellFormed) (hm : a.contains m)
    (hn : b.contains n) (hle : n ≤ m) (h : a.restrictGe b = .ok r) : r.contains m :=
  contains_meet_ofInterval ha (proper_between hb.interval.low_fits fits_posInf) hm
    (contains_from hn hle) h

end

lemma contains_trimEnds (hi : i.contains m) (hne : m ≠ n) (hfits : fits m) :
    (trimEnds n i).contains m := by
  have hlow : (if i.low = .finite n then between (.finite (satAdd n 1)) i.high
      else i).contains m = true := by
    split
    next hl =>
      rw [Interval.contains_iff, hl, finite_le_finite] at hi
      refine contains_between.2 ⟨finite_le_finite.2 ?_, hi.2⟩
      rw [← clamp_of_fits hfits]
      exact clamp_mono (by omega)
    next => exact hi
  unfold trimEnds
  extract_lets j
  split
  next hh =>
    have hj := Interval.contains_iff.1 hlow
    change j.low ≤ _ ∧ _ ≤ j.high at hj
    rw [hh, finite_le_finite] at hj
    refine contains_between.2 ⟨hj.1, finite_le_finite.2 ?_⟩
    rw [← clamp_of_fits hfits]
    exact clamp_mono (by omega)
  next => exact hlow

lemma contains_restrictNe (ha : a.WellFormed) (hm : a.contains m) (hn : b.contains n)
    (hne : m ≠ n) (hfits : fits m) (h : a.restrictNe b = .ok r) :
    r.contains m := by
  unfold restrictNe at h
  split at h
  · cases h
    exact hm
  next l hl =>
    cases eq_of_constant? hl hn
    have hcomponents := contains_iff.1 hm
    exact contains_reduced (proper_trimEnds _ ha.interval)
      (contains_trimEnds hcomponents.1 hne hfits) hcomponents.2 h

end IntVal
end StaticAnalysis
