import StaticAnalysis.Proofs.Numeric.Reduction

/-!
# Members of intervals and congruence classes

Every operation on intervals and on congruence classes covers the exact results on members of its
operands, as far as these results are words.  Subtraction, remainder and the division by a negative
constant go through a negation that saturates, so they are stated here for operands whose negation
is a word too: `Word.Admissible` is what a run may produce.
-/

namespace StaticAnalysis

open StaticAnalysis.Bound Int List Nat Word

/-- An integer that is a word together with its negation. -/
def Word.Admissible (n : Int) : Prop := Word.fits n = true ∧ Word.fits (-n) = true

instance (n : Int) : Decidable (Word.Admissible n) := inferInstanceAs (Decidable (_ ∧ _))

namespace Interval

variable {i j : Interval} {m n : Int}

lemma contains_constant : (constant m).contains n ↔ n = m := by
  rw [constant, range, contains_between]
  simp only [finite_le_finite]
  omega

lemma contains_atLeast : (atLeast m).contains n ↔ m ≤ n := by
  simp [atLeast, contains_between]

lemma contains_atMost : (atMost m).contains n ↔ n ≤ m := by
  simp [atMost, contains_between]

lemma contains_of_le (h : i.le j) (hn : i.contains n) : j.contains n := by
  rcases le_iff.1 h with he | ⟨hl, hh⟩
  · simp [isEmpty_of_contains hn] at he
  · obtain ⟨hl', hh'⟩ := contains_iff.1 hn
    exact contains_iff.2 ⟨hl.trans hl', hh'.trans hh⟩

lemma eq_of_constant? (h : i.constant? = some m) (hn : i.contains n) : n = m := by
  rw [constant?_eq_some] at h
  subst h
  have := contains_iff.1 hn
  simp only [finite_le_finite] at this
  omega

lemma contains_meet : (i.meet j).contains n ↔ i.contains n ∧ j.contains n := by
  rw [meet, contains_between, contains_iff, contains_iff, max_le_iff, le_min_iff]
  tauto

lemma meet_eq (h : (i.meet j).contains n) : i.meet j = ⟨max i.low j.low, min i.high j.high⟩ := by
  obtain ⟨hl, hh⟩ := contains_between.1 h
  refine between_eq (hl.trans hh) (fun he => ?_) fun he => ?_
  · rw [he] at hl
    simp at hl
  · rw [he] at hh
    simp at hh

lemma contains_narrow (hi : i.contains n) (hj : j.contains n) : (i.narrow j).contains n := by
  have hie := isEmpty_of_contains hi
  have hje := isEmpty_of_contains hj
  rw [contains_iff] at hi hj
  simp only [narrow, hie, hje, Bool.or_self]
  rw [if_neg (by simp), contains_between]
  constructor
  · split
    exacts [hj.1, hi.1]
  · split
    exacts [hj.2, hi.2]

/-! ## Arithmetic -/

lemma contains_neg (hi : i.contains n) (h : fits (-n)) : i.neg.contains (-n) := by
  have hie := isEmpty_of_contains hi
  rw [contains_iff] at hi
  rw [neg, if_neg (by simp [hie]), contains_between, ← neg_finite h]
  exact ⟨neg_le_neg hi.2, neg_le_neg hi.1⟩

section

variable (hi : i.contains m) (hj : j.contains n)
include hi hj

lemma contains_satAdd : (i.add j).contains (satAdd m n) := by
  have hie := isEmpty_of_contains hi
  have hje := isEmpty_of_contains hj
  rw [contains_iff] at hi hj
  rw [add, if_neg (by simp [hie, hje]), contains_between]
  exact ⟨add_le_satAdd hi.1 hj.1, satAdd_le_add hi.2 hj.2⟩

lemma contains_add (h : fits (m + n)) : (i.add j).contains (m + n) := by
  rw [← clamp_of_fits h]
  exact contains_satAdd hi hj

lemma contains_sub (hn : fits (-n)) (h : fits (m - n)) : (i.sub j).contains (m - n) :=
  contains_add hi (contains_neg hj hn) h

end

variable {a x c : Int} {b : Bound}

lemma contains_span {corners : List Bound} {a : Bound} (ha : a ∈ corners) (hb : b ∈ corners)
    (hl : a ≤ .finite n) (hh : .finite n ≤ b) : (span corners).contains n := by
  unfold span
  cases hmin : corners.min? with
  | none => simp [min?_eq_none_iff.1 hmin] at ha
  | some low =>
    cases hmax : corners.max? with
    | none => simp [max?_eq_none_iff.1 hmax] at ha
    | some high =>
      have hlow : low ≤ a := (min?_eq_some_iff.1 hmin).2 a ha
      have hhigh : b ≤ high := (max?_eq_some_iff.1 hmax).2 b hb
      exact contains_between.2 ⟨hlow.trans hl, hh.trans hhigh⟩

lemma contains_satMul (hi : i.contains m) (hj : j.contains n) :
    (i.mul j).contains (Word.satMul m n) := by
  have hie := isEmpty_of_contains hi
  have hje := isEmpty_of_contains hj
  rw [contains_iff] at hi hj
  rw [mul, if_neg (by simp [hie, hje])]
  have hmn : (Bound.finite m).mul (.finite n) = .finite (satMul m n) := rfl
  -- First the left operand is moved to an end of its interval, then the right one.
  have hleft := mul_enclosed (.finite n) hi.1 hi.2
  obtain ⟨⟨a, ha, hla⟩, ⟨b, hb, hlb⟩⟩ := hleft
  obtain ⟨⟨c, hc, hlc⟩, -⟩ := mul_enclosed a hj.1 hj.2
  obtain ⟨-, ⟨d, hd, hld⟩⟩ := Bound.mul_enclosed b hj.1 hj.2
  rw [Bound.mul_comm _ a, Bound.mul_comm _ (.finite m), hmn] at hla
  rw [Bound.mul_comm _ b, Bound.mul_comm _ (.finite m), hmn] at hlb
  simp only [mem_cons, not_mem_nil, or_false] at ha hb hc hd
  refine contains_span (a := a.mul c) (b := b.mul d) ?_ ?_ (hlc.trans hla) (hlb.trans hld)
  · rcases ha with rfl | rfl <;> rcases hc with rfl | rfl <;> simp
  · rcases hb with rfl | rfl <;> rcases hd with rfl | rfl <;> simp

lemma contains_mul (hi : i.contains m) (hj : j.contains n)
    (h : fits (m * n)) : (i.mul j).contains (m * n) := by
  rw [← clamp_of_fits h]
  exact contains_satMul hi hj

lemma contains_divSign (hp : i.Proper) (hi : i.contains m) (hj : j.contains n)
    (hs : .finite 1 ≤ j.low ∨ j.high ≤ .finite (-1)) (hm : fits m)
    (h : fits (m.tdiv n)) : (i.divSign j).contains (m.tdiv n) := by
  have hje := isEmpty_of_contains hj
  rw [contains_iff] at hi hj
  rw [divSign, if_neg (by simp [hje])]
  obtain ⟨⟨y, hy, q, hq, hle⟩, ⟨z, hz, r, hr, hge⟩⟩ :=
    quotients_enclosed_divisor hm h hj.1 hj.2 hs
  obtain ⟨⟨x, hx, q', hq', hle'⟩, -⟩ :=
    quotients_enclosed_dividend hp.low_fits hp.high_fits hm hi.1 hi.2 hq
  obtain ⟨-, ⟨w, hw, r', hr', hge'⟩⟩ :=
    quotients_enclosed_dividend hp.low_fits hp.high_fits hm hi.1 hi.2 hr
  refine contains_span (a := q') (b := r') ?_ ?_ (hle'.trans hle) (hge.trans hge')
  · exact mem_flatMap.2 ⟨x, hx, mem_flatMap.2 ⟨y, hy, hq'⟩⟩
  · exact mem_flatMap.2 ⟨w, hw, mem_flatMap.2 ⟨z, hz, hr'⟩⟩

lemma contains_div (hp : i.Proper) (hi : i.contains m) (hj : j.contains n)
    (hn : n ≠ 0) (hm : fits m) (h : fits (m.tdiv n)) :
    (i.div j).contains (m.tdiv n) := by
  have hie := isEmpty_of_contains hi
  have hje := isEmpty_of_contains hj
  rw [div, if_neg (by simp [hie, hje])]
  rcases lt_or_gt_of_ne hn with hneg | hpos
  · have hd : (j.meet (atMost (-1))).contains n = true :=
      contains_meet.2 ⟨hj, contains_atMost.2 (by omega)⟩
    refine contains_of_le (le_join_left _ _) (contains_divSign hp hi hd (.inr ?_) hm h)
    rw [meet_eq hd]
    exact min_le_right _ _
  · have hd : (j.meet (atLeast 1)).contains n = true :=
      contains_meet.2 ⟨hj, contains_atLeast.2 (by omega)⟩
    refine contains_of_le (le_join_right _ _) (contains_divSign hp hi hd (.inl ?_) hm h)
    rw [meet_eq hd]
    exact le_max_right _ _

/-- A remainder has the sign of its dividend, is not farther from zero, and is within the limit that
the divisor sets. -/
lemma contains_remWithin {limit : Bound} {r : Int} (hi : i.contains m)
    (hpos : 0 ≤ m → 0 ≤ r ∧ r ≤ m) (hneg : m ≤ 0 → r ≤ 0 ∧ m ≤ r)
    (hlow : limit.neg ≤ .finite r) (hhigh : .finite r ≤ limit) :
    (i.remWithin limit).contains r := by
  rw [contains_iff] at hi
  have hzero : ∀ {b : Bound}, ¬ .finite 0 ≤ b → b ≤ .finite 0 := fun h => (not_le.1 h).le
  refine contains_between.2 ⟨?_, ?_⟩
  · split
    next h0 => exact finite_le_finite.2 (hpos (finite_le_finite.1 (h0.trans hi.1))).1
    next h0 =>
      refine max_le ?_ hlow
      rcases le_total 0 m with hm | hm
      · exact (hzero h0).trans (finite_le_finite.2 (hpos hm).1)
      · exact hi.1.trans (finite_le_finite.2 (hneg hm).2)
  · split
    next h0 => exact finite_le_finite.2 (hneg (finite_le_finite.1 (hi.2.trans h0))).1
    next h0 =>
      refine le_min ?_ hhigh
      rcases le_total 0 m with hm | hm
      · exact (finite_le_finite.2 (hpos hm).2).trans hi.2
      · exact (finite_le_finite.2 (hneg hm).1).trans (not_le.1 h0).le

lemma tmod_nonneg_le (hm : 0 ≤ m) : 0 ≤ m.tmod n ∧ m.tmod n ≤ m := by
  have habs : (m.tmod n).natAbs ≤ m.natAbs := by
    rw [natAbs_tmod]
    exact mod_le _ _
  have := tmod_nonneg n hm
  omega

lemma tmod_nonpos_le (hm : m ≤ 0) : m.tmod n ≤ 0 ∧ m ≤ m.tmod n := by
  have := tmod_nonneg_le (n := n) (neg_nonneg.2 hm)
  rw [neg_tmod] at this
  omega

/-- A remainder below the limit that the divisors set is found, and so is the one remainder of two
constants. -/
lemma contains_rem_of_limit (hi : i.contains m) (hj : j.contains n) (hn : n ≠ 0)
    (hm : fits m)
    (h : ∀ d, max j.low.neg j.high = .finite d → 0 < d ∧
      ((m.tmod n).natAbs < d ∨ i.constant? = some m ∧ j.constant? = some n)) :
    (i.rem j).contains (m.tmod n) := by
  have hie := isEmpty_of_contains hi
  have hje := isEmpty_of_contains hj
  have hr := fits_tmod (c := n) hm
  unfold rem
  rw [if_neg (by simp [hie, hje])]
  extract_lets within
  -- Constants have their own remainder; otherwise the limit has to bound it.
  have hwithin : ∀ limit : Bound, (limit.neg ≤ .finite (m.tmod n) ∧ .finite (m.tmod n) ≤ limit) ∨
      i.constant? = some m ∧ j.constant? = some n → (within limit).contains (m.tmod n) = true := by
    rintro limit (⟨hlow, hhigh⟩ | ⟨him, hjn⟩)
    · have hrem := contains_remWithin hi tmod_nonneg_le tmod_nonpos_le hlow hhigh
      dsimp only [within]
      split
      next x c hx hc =>
        split
        · exact hrem
        · rw [contains_constant, eq_of_constant? hx hi, eq_of_constant? hc hj]
      next => exact hrem
    · simp only [within, him, hjn, hn, if_false]
      exact contains_constant.2 rfl
  split
  next limit hlimit =>
    obtain ⟨hpos, hbound⟩ := h limit hlimit
    rw [if_pos hpos]
    refine hwithin _ (hbound.imp_left fun hlt => ⟨?_, finite_le_finite.2 (by omega)⟩)
    rw [Bound.neg, finite_le_finite, ← clamp_of_fits hr]
    exact clamp_mono (by omega)
  next => exact hwithin _ (.inl ⟨negInf_le _, le_posInf _⟩)

lemma contains_rem (hi : i.contains m) (hj : j.contains n) (hn : n ≠ 0)
    (hm : fits m) (hn' : fits (-n)) :
    (i.rem j).contains (m.tmod n) := by
  refine contains_rem_of_limit hi hj hn hm fun d hd => ?_
  rw [contains_iff] at hj
  have hmagnitude : .finite (-n) ≤ max j.low.neg j.high ∧ .finite n ≤ max j.low.neg j.high := by
    refine ⟨le_max_of_le_left ?_, le_max_of_le_right hj.2⟩
    rw [← neg_finite hn']
    exact neg_le_neg hj.1
  rw [hd, finite_le_finite, finite_le_finite] at hmagnitude
  have hlt : (m.tmod n).natAbs < n.natAbs := by
    rw [natAbs_tmod]
    exact mod_lt _ (by omega)
  exact ⟨by omega, .inl (by omega)⟩

/-! ## Preimages -/

lemma ofInt_iff (hx : fits x) :
    (Bound.ofInt m ≤ .finite x ↔ m ≤ x) ∧ (.finite x ≤ Bound.ofInt m ↔ x ≤ m) := by
  rw [fits_iff] at hx
  unfold Bound.ofInt
  split
  · exact ⟨finite_le_finite, finite_le_finite⟩
  next hm =>
    rw [fits_iff] at hm
    unfold least greatest at *
    split <;> simp <;> omega

lemma le_fdiv_iff (hc : 0 < c) : x ≤ n.fdiv c ↔ x * c ≤ n := by
  rw [fdiv_eq_ediv_of_nonneg _ hc.le, Int.le_ediv_iff_mul_le hc]

lemma le_fdiv_iff_of_neg (hc : c < 0) : x ≤ n.fdiv c ↔ n ≤ x * c := by
  rw [← Int.neg_fdiv_neg, le_fdiv_iff (neg_pos.2 hc), Int.mul_neg, neg_le_neg_iff]

lemma scaleDown_le_iff (hc : 0 < c) (hx : fits x) :
    scaleDown c (fun n => -((-n).fdiv c)) b ≤ .finite x ↔ b ≤ .finite (x * c) := by
  cases b with
  | negInf | posInf => simp [scaleDown, hc]
  | finite l =>
    rw [scaleDown, (ofInt_iff hx).1, finite_le_finite, neg_le, le_fdiv_iff hc, Int.neg_mul,
      neg_le_neg_iff]

lemma le_scaleDown_iff (hc : 0 < c) (hx : fits x) :
    .finite x ≤ scaleDown c (fun n => n.fdiv c) b ↔ .finite (x * c) ≤ b := by
  cases b with
  | negInf | posInf => simp [scaleDown, hc]
  | finite u => rw [scaleDown, (ofInt_iff hx).2, finite_le_finite, le_fdiv_iff hc]

lemma scaleDown_le_iff_of_neg (hc : c < 0) (hx : fits x) :
    scaleDown c (fun n => -((-n).fdiv c)) b ≤ .finite x ↔ .finite (x * c) ≤ b := by
  cases b with
  | negInf | posInf => simp [scaleDown, hc.not_gt, Bound.neg]
  | finite u =>
    rw [scaleDown, (ofInt_iff hx).1, finite_le_finite, neg_le, le_fdiv_iff_of_neg hc, Int.neg_mul,
      neg_le_neg_iff]

lemma le_scaleDown_iff_of_neg (hc : c < 0) (hx : fits x) :
    .finite x ≤ scaleDown c (fun n => n.fdiv c) b ↔ b ≤ .finite (x * c) := by
  cases b with
  | negInf | posInf => simp [scaleDown, hc.not_gt, Bound.neg]
  | finite l => rw [scaleDown, (ofInt_iff hx).2, finite_le_finite, le_fdiv_iff_of_neg hc]

lemma contains_mulPreimage_iff (hi : i.isEmpty = false) (hc : c ≠ 0) (hx : fits x) :
    (i.mulPreimage c).contains x ↔ i.low ≤ .finite (x * c) ∧ .finite (x * c) ≤ i.high := by
  unfold mulPreimage
  rw [if_neg (by simp [hi, hc]), contains_between]
  rcases lt_or_gt_of_ne hc with hneg | hpos
  · rw [if_neg hneg.not_gt, if_neg hneg.not_gt, scaleDown_le_iff_of_neg hneg hx,
      le_scaleDown_iff_of_neg hneg hx, and_comm]
  · rw [if_pos hpos, if_pos hpos, scaleDown_le_iff hpos hx, le_scaleDown_iff hpos hx]

lemma contains_mulPreimage (hc : c ≠ 0) (hi : i.contains (x * c)) (hx : fits x) :
    (i.mulPreimage c).contains x :=
  (contains_mulPreimage_iff (isEmpty_of_contains hi) hc hx).2 (contains_iff.1 hi)

lemma tdiv_bounds (hc : 0 < c) :
    (if 0 < x.tdiv c then x.tdiv c * c else x.tdiv c * c - (c - 1)) ≤ x ∧
      x ≤ if x.tdiv c < 0 then x.tdiv c * c else x.tdiv c * c + (c - 1) := by
  have heq : c * x.tdiv c + x.tmod c = x := mul_tdiv_add_tmod x c
  rw [Int.mul_comm] at heq
  rcases le_total 0 x with hx | hx
  · have h1 := tmod_nonneg c hx
    have h2 := tmod_lt_of_pos x hc
    have h3 := Int.tdiv_nonneg hx hc.le
    constructor <;> split_ifs <;> omega
  · have h1 := tmod_nonneg c (neg_nonneg.2 hx)
    have h2 := tmod_lt_of_pos (-x) hc
    have h3 := Int.tdiv_nonneg (neg_nonneg.2 hx) hc.le
    rw [neg_tmod] at h1 h2
    rw [Int.neg_tdiv] at h3
    constructor <;> split_ifs <;> omega

lemma satSub_satMul_le (hc : 0 < c) (ha : a * c ≤ 0) (h : a * c - (c - 1) ≤ x) (hx : fits x) :
    satSub (satMul a c) (c - 1) ≤ x := by
  unfold satSub satMul clamp
  rw [fits_iff] at hx
  unfold least greatest at *
  generalize a * c = y at *
  split_ifs <;> omega

lemma le_satAdd_satMul (hc : 0 < c) (ha : 0 ≤ a * c) (h : x ≤ a * c + (c - 1)) (hx : fits x) :
    x ≤ satAdd (satMul a c) (c - 1) := by
  unfold satAdd satMul clamp
  rw [fits_iff] at hx
  unfold least greatest at *
  generalize a * c = y at *
  split_ifs <;> omega

lemma contains_divPreimagePos (hc : 0 < c) (hi : i.contains (x.tdiv c)) (hx : fits x) :
    (i.divPreimagePos c).contains x := by
  obtain ⟨hlow, hhigh⟩ := tdiv_bounds (x := x) hc
  rw [contains_iff] at hi
  refine contains_between.2 ⟨?_, ?_⟩
  · cases hl : i.low with
    | negInf => exact negInf_le _
    | posInf => simp [hl] at hi
    | finite l =>
      rw [hl, finite_le_finite] at hi
      have hmul := Int.mul_le_mul_of_nonneg_right hi.1 hc.le
      dsimp only
      split
      next hpos =>
        rw [finite_le_finite, ← clamp_of_fits hx]
        refine clamp_mono ?_
        rw [if_pos (by omega)] at hlow
        exact hmul.trans hlow
      next hpos =>
        refine finite_le_finite.2 (satSub_satMul_le hc ?_ ?_ hx)
        · exact mul_nonpos_of_nonpos_of_nonneg (by omega) hc.le
        · split at hlow <;> omega
  · cases hh : i.high with
    | negInf => simp [hh] at hi
    | posInf => exact le_posInf _
    | finite u =>
      rw [hh, finite_le_finite] at hi
      have hmul := Int.mul_le_mul_of_nonneg_right hi.2 hc.le
      dsimp only
      split
      next hneg =>
        rw [finite_le_finite, ← clamp_of_fits hx]
        refine clamp_mono ?_
        rw [if_pos (by omega)] at hhigh
        exact hhigh.trans hmul
      next hneg =>
        refine finite_le_finite.2 (le_satAdd_satMul hc ?_ ?_ hx)
        · exact mul_nonneg (by omega) hc.le
        · split at hhigh <;> omega

lemma contains_divPreimage (hc : c ≠ 0) (hi : i.contains (x.tdiv c)) (hx : fits x)
    (hc' : fits (-c)) (hq : fits (-(x.tdiv c))) :
    (i.divPreimage c).contains x := by
  have hie := isEmpty_of_contains hi
  unfold divPreimage
  rw [if_neg (by simp [hie, hc])]
  split
  next hneg =>
    have hsat : satNeg c = -c := clamp_of_fits hc'
    rw [hsat]
    refine contains_divPreimagePos (by omega) ?_ hx
    rw [Int.tdiv_neg]
    exact contains_neg hi hq
  next hneg => exact contains_divPreimagePos (by omega) hi hx

end Interval

namespace Congruence

variable {a b : Congruence} {m n : Int}

lemma contains_top : top.contains n := residue_contains.2 (one_dvd _)

lemma exists_residue_of_contains (h : a.contains n) : ∃ c k, a = .residue c k ∧ k ∣ n - c := by
  cases a with
  | bottom => simp [contains] at h
  | residue c k => exact ⟨c, k, rfl, residue_contains.1 h⟩

lemma contains_iff_dvd (hm : a.contains m) : a.contains n ↔ a.modulus ∣ n - m := by
  obtain ⟨c, k, rfl, hdvd⟩ := exists_residue_of_contains hm
  rw [residue_contains, ← sub_add_sub_cancel n m c]
  exact dvd_add_left hdvd

lemma contains_of_le (h : a.le b) (hn : a.contains n) : b.contains n := by
  obtain ⟨c₁, k₁, rfl, hdvd⟩ := exists_residue_of_contains hn
  cases b with
  | bottom => simp [le] at h
  | residue c₂ k₂ =>
    obtain ⟨hk, hc⟩ := residue_le_residue.1 h
    have hsum := dvd_add (hk.trans hdvd) hc
    rw [sub_add_sub_cancel] at hsum
    exact residue_contains.2 hsum

lemma eq_of_constant? (h : a.constant? = some m) (hn : a.contains n) : n = m := by
  obtain ⟨c, k, rfl, hdvd⟩ := exists_residue_of_contains hn
  simp only [constant?] at h
  split at h
  next hk =>
    cases h
    rw [hk, zero_dvd_iff] at hdvd
    omega
  next => cases h

lemma contains_narrow (ha : a.contains n) (hb : b.contains n) : (a.narrow b).contains n := by
  unfold narrow
  split
  exacts [hb, ha]

lemma contains_neg (h : a.contains n) : a.neg.contains (-n) := by
  obtain ⟨c, k, rfl, hdvd⟩ := exists_residue_of_contains h
  refine ofResidue_contains ?_
  rw [show -n - -c = -(n - c) by ring]
  exact (dvd_neg).2 hdvd

section

variable (ha : a.contains m) (hb : b.contains n)
include ha hb

lemma contains_add : (a.add b).contains (m + n) := by
  obtain ⟨c₁, k₁, rfl, h₁⟩ := exists_residue_of_contains ha
  obtain ⟨c₂, k₂, rfl, h₂⟩ := exists_residue_of_contains hb
  refine ofResidue_contains ?_
  rw [show m + n - (c₁ + c₂) = m - c₁ + (n - c₂) by ring]
  exact dvd_add ((Int.gcd_dvd_left k₁ k₂).trans h₁) ((Int.gcd_dvd_right k₁ k₂).trans h₂)

lemma contains_sub : (a.sub b).contains (m - n) :=
  contains_add ha (contains_neg hb)

lemma contains_mul : (a.mul b).contains (m * n) := by
  obtain ⟨c₁, k₁, rfl, s, hs⟩ := exists_residue_of_contains ha
  obtain ⟨c₂, k₂, rfl, t, ht⟩ := exists_residue_of_contains hb
  refine ofResidue_contains ?_
  have hin : gcd (gcd (c₁ * k₂) (c₂ * k₁)) (k₁ * k₂) ∣ gcd (c₁ * k₂) (c₂ * k₁) :=
    Int.gcd_dvd_left _ _
  have h₁ := hin.trans (Int.gcd_dvd_left (c₁ * k₂) (c₂ * k₁))
  have h₂ := hin.trans (Int.gcd_dvd_right (c₁ * k₂) (c₂ * k₁))
  have h₃ : gcd (gcd (c₁ * k₂) (c₂ * k₁)) (k₁ * k₂) ∣ k₁ * k₂ := Int.gcd_dvd_right _ _
  have heq : m * n - c₁ * c₂ = c₁ * k₂ * t + c₂ * k₁ * s + k₁ * k₂ * (s * t) := by
    rw [sub_eq_iff_eq_add.1 hs, sub_eq_iff_eq_add.1 ht]
    ring
  rw [heq]
  exact dvd_add (dvd_add (h₁.mul_right t) (h₂.mul_right s)) (h₃.mul_right (s * t))

end

variable {x k₁ k₂ c₁ c₂ : Int}

lemma tmod_eq_zero_iff {d : Int} : x.tmod d = 0 ↔ d ∣ x := (dvd_iff_tmod_eq_zero).symm

lemma contains_div (ha : a.contains m) (hb : b.contains n) (hn : n ≠ 0) :
    (a.div b).contains (m.tdiv n) := by
  obtain ⟨c, k, rfl, hdvd⟩ := exists_residue_of_contains ha
  simp only [div]
  split
  · exact contains_top
  next d hd =>
    cases eq_of_constant? hd hb
    rw [if_neg hn]
    split
    next hk =>
      rw [hk, zero_dvd_iff, sub_eq_zero] at hdvd
      exact ofResidue_contains (by simp [hdvd])
    split
    next h =>
      obtain ⟨c', rfl⟩ := tmod_eq_zero_iff.1 h.1
      obtain ⟨k', rfl⟩ := tmod_eq_zero_iff.1 h.2
      obtain ⟨t, ht⟩ := hdvd
      have hm : m = n * (c' + k' * t) := by
        rw [sub_eq_iff_eq_add.1 ht]
        ring
      refine ofResidue_contains ?_
      rw [hm, mul_tdiv_cancel_left _ hn, mul_tdiv_cancel_left _ hn, mul_tdiv_cancel_left _ hn]
      exact ⟨t, by ring⟩
    · exact contains_top

lemma dvd_sub_tmod (x d : Int) : d ∣ x - x.tmod d :=
  ⟨x.tdiv d, by have := mul_tdiv_add_tmod x d; omega⟩

lemma contains_rem (ha : a.contains m) (hb : b.contains n) (hn : n ≠ 0) :
    (a.rem b).contains (m.tmod n) := by
  obtain ⟨c, k, rfl, hdvd⟩ := exists_residue_of_contains ha
  simp only [rem]
  split
  · exact contains_top
  next d hd =>
    cases eq_of_constant? hd hb
    rw [if_neg hn]
    split
    next hk =>
      rw [hk, zero_dvd_iff, sub_eq_zero] at hdvd
      exact ofResidue_contains (by simp [hdvd])
    split
    next hk =>
      have hnk : n ∣ k := by
        have := tmod_eq_zero_iff.1 hk
        rwa [ofNat_eq_natCast, natCast_natAbs, abs_dvd] at this
      have hmc : n ∣ m - c := hnk.trans hdvd
      split
      next hc =>
        have hnc : n ∣ c := by
          have := tmod_eq_zero_iff.1 hc
          rwa [ofNat_eq_natCast, natCast_natAbs, abs_dvd] at this
        have hzero : m.tmod n = 0 := tmod_eq_zero_iff.2 ((dvd_sub_left hnc).1 hmc)
        rw [hzero]
        rfl
      next =>
        refine ofResidue_contains ?_
        rw [ofNat_eq_natCast, natCast_natAbs, abs_dvd]
        have := dvd_sub hmc (dvd_sub_tmod m n)
        rwa [show m - c - (m - m.tmod n) = m.tmod n - c by ring] at this
    next => exact contains_top

lemma contains_remPreimage (hm : m ≠ 0) : (remPreimage (x.tmod m) m).contains x := by
  rw [remPreimage, if_neg hm]
  exact ofResidue_contains (dvd_sub_tmod x m)

/-! ## Meets -/

lemma bezout_spec (fuel x y : Nat) (h : y < fuel) :
    (bezout fuel x y).1 * x + (bezout fuel x y).2 * y = Nat.gcd x y := by
  induction fuel generalizing x y with
  | zero => omega
  | succ fuel ih =>
    unfold bezout
    split
    next hy => simp [hy]
    next hy =>
      have hrec := ih y (x % y) (by have := mod_lt x (Nat.pos_of_ne_zero hy); omega)
      have hgcd : Nat.gcd y (x % y) = Nat.gcd x y := by
        rw [Nat.gcd_comm y, ← gcd_rec, Nat.gcd_comm]
      have hdiv : (x : Int) = y * Int.ofNat (x / y) + (x % y : Nat) := by
        rw [ofNat_eq_natCast]
        exact_mod_cast (div_add_mod x y).symm
      rw [← hgcd, ← hrec]
      dsimp only
      generalize bezout fuel y (x % y) = r at *
      calc r.2 * x + (r.1 - Int.ofNat (x / y) * r.2) * y
          = r.2 * (x - y * Int.ofNat (x / y)) + r.1 * y := by ring
        _ = r.1 * y + r.2 * (x % y : Nat) := by
          rw [show (x : Int) - y * Int.ofNat (x / y) = (x % y : Nat) by omega]
          ring

lemma gcd_ne_zero (hk₁ : 0 < k₁) : gcd k₁ k₂ ≠ 0 := by
  simp [gcd, Int.gcd_eq_zero_iff, hk₁.ne']

lemma bezout_gcd (hk₁ : 0 < k₁) (hk₂ : 0 < k₂) :
    (bezout (k₂.toNat + 1) k₁.toNat k₂.toNat).1 * k₁ +
      (bezout (k₂.toNat + 1) k₁.toNat k₂.toNat).2 * k₂ = gcd k₁ k₂ := by
  have h := bezout_spec (k₂.toNat + 1) k₁.toNat k₂.toNat (by omega)
  rw [toNat_of_nonneg hk₁.le, toNat_of_nonneg hk₂.le] at h
  rw [h, show k₁.toNat = k₁.natAbs by omega, show k₂.toNat = k₂.natAbs by omega]
  rfl

lemma tdiv_gcd_mul (hk₁ : 0 < k₁) (hk₂ : 0 < k₂) : k₁.tdiv (gcd k₁ k₂) * k₂ = Int.lcm k₁ k₂ := by
  have hdvd : gcd k₁ k₂ ∣ k₁ := Int.gcd_dvd_left k₁ k₂
  have hprod : gcd k₁ k₂ * Int.lcm k₁ k₂ = k₁ * k₂ := by
    have h : ((Int.gcd k₁ k₂ * Int.lcm k₁ k₂ : Nat) : Int) = (k₁.natAbs * k₂.natAbs : Nat) :=
      congrArg Nat.cast (Int.gcd_mul_lcm k₁ k₂)
    rw [Nat.cast_mul, Nat.cast_mul, natAbs_of_nonneg hk₁.le, natAbs_of_nonneg hk₂.le] at h
    exact h
  refine Int.eq_of_mul_eq_mul_left (gcd_ne_zero hk₁ : gcd k₁ k₂ ≠ 0) ?_
  rw [hprod, ← mul_assoc, Int.mul_tdiv_cancel' hdvd]

lemma dvd_representative {g s u : Int} (hg : g ≠ 0) (hk₁ : g ∣ k₁) (hk₂ : g ∣ k₂) (hd : g ∣ c₂ - c₁)
    (hsum : s * k₁ + u * k₂ = g) : k₂ ∣ c₁ + k₁ * ((c₂ - c₁).tdiv g * s % k₂.tdiv g) - c₂ := by
  obtain ⟨p, rfl⟩ := hk₁
  obtain ⟨q, rfl⟩ := hk₂
  obtain ⟨d, hd⟩ := hd
  rw [hd, mul_tdiv_cancel_left _ hg, mul_tdiv_cancel_left _ hg]
  obtain ⟨w, hw⟩ : q ∣ d * s - d * s % q := dvd_self_sub_emod
  have hone : s * p + u * q = 1 := by
    refine Int.eq_of_mul_eq_mul_left hg ?_
    calc g * (s * p + u * q) = s * (g * p) + u * (g * q) := by ring
      _ = g * 1 := by rw [hsum, mul_one]
  refine ⟨-(d * u + p * w), ?_⟩
  calc c₁ + g * p * (d * s % q) - c₂
      = g * p * (d * s - q * w) - (c₂ - c₁) := by
        rw [← hw]
        ring
    _ = g * d * (s * p + u * q - 1) + g * q * -(d * u + p * w) := by
        rw [hd]
        ring
    _ = g * q * -(d * u + p * w) := by
        rw [hone]
        ring

lemma meetResidues_cases (c₁ c₂ : Int) (hk₁ : 0 < k₁) (hk₂ : 0 < k₂) :
    (¬ gcd k₁ k₂ ∣ c₂ - c₁ ∧ meetResidues c₁ k₁ c₂ k₂ = .bottom) ∨
    ∃ x, k₁ ∣ x - c₁ ∧ k₂ ∣ x - c₂ ∧ meetResidues c₁ k₁ c₂ k₂ = ofResidue x (Int.lcm k₁ k₂) := by
  unfold meetResidues
  dsimp only
  split
  next h => exact .inl ⟨fun hd => h (tmod_eq_zero_iff.2 hd), rfl⟩
  next h =>
    have hd : gcd k₁ k₂ ∣ c₂ - c₁ := tmod_eq_zero_iff.1 (not_not.1 h)
    refine .inr ⟨_, ?_, ?_, by rw [tdiv_gcd_mul hk₁ hk₂]⟩
    · rw [add_sub_cancel_left]
      exact Dvd.intro _ rfl
    · exact dvd_representative (gcd_ne_zero hk₁) (Int.gcd_dvd_left k₁ k₂)
        (Int.gcd_dvd_right k₁ k₂) hd (bezout_gcd hk₁ hk₂)

lemma gcd_dvd_sub (h₁ : k₁ ∣ n - c₁) (h₂ : k₂ ∣ n - c₂) : gcd k₁ k₂ ∣ c₂ - c₁ := by
  rw [← sub_sub_sub_cancel_left c₁ c₂ n]
  exact dvd_sub ((Int.gcd_dvd_left k₁ k₂).trans h₁) ((Int.gcd_dvd_right k₁ k₂).trans h₂)

/-- Canonical classes meet in nothing if they have no common integer, and otherwise in the class of
any common integer modulo the least common multiple, which is zero if one of them is a single
integer. -/
lemma meet_cases (ha : a.Canonical) (hb : b.Canonical) :
    ((∀ n, a.contains n → ¬ b.contains n) ∧ a.meet b = .bottom) ∨
    ∃ x, a.contains x ∧ b.contains x ∧ a.meet b = ofResidue x (Int.lcm a.modulus b.modulus) := by
  obtain _ | ⟨c₁, k₁⟩ := a
  · exact .inl ⟨nofun, rfl⟩
  obtain _ | ⟨c₂, k₂⟩ := b
  · exact .inl ⟨fun _ _ => nofun, rfl⟩
  obtain ⟨hc₁, -, hk₁, -⟩ := ha
  obtain ⟨hc₂, -, hk₂, -⟩ := hb
  simp only [meet, modulus, residue_contains]
  by_cases h₁ : k₁ = 0
  · subst h₁
    rw [if_pos rfl, Int.lcm_zero_left]
    by_cases hdvd : k₂ ∣ c₁ - c₂
    · exact .inr ⟨c₁, by simp, hdvd, (if_pos hdvd).trans (ofResidue_zero hc₁).symm⟩
    · refine .inl ⟨fun n hn => ?_, if_neg hdvd⟩
      rwa [sub_eq_zero.1 (zero_dvd_iff.1 hn)]
  by_cases h₂ : k₂ = 0
  · subst h₂
    rw [if_neg h₁, if_pos rfl, Int.lcm_zero_right]
    by_cases hdvd : k₁ ∣ c₂ - c₁
    · exact .inr ⟨c₂, hdvd, by simp, (if_pos hdvd).trans (ofResidue_zero hc₂).symm⟩
    · refine .inl ⟨fun n hn hn₂ => hdvd ?_, if_neg hdvd⟩
      rwa [← sub_eq_zero.1 (zero_dvd_iff.1 hn₂)]
  · rw [if_neg h₁, if_neg h₂]
    rcases meetResidues_cases c₁ c₂ (by omega : 0 < k₁) (by omega : 0 < k₂) with ⟨hdvd, h⟩ | h
    · exact .inl ⟨fun n hn₁ hn₂ => hdvd (gcd_dvd_sub hn₁ hn₂), h⟩
    · exact .inr h

lemma lcm_dvd_of_contains {x : Int} (hxa : a.contains x) (hxb : b.contains x) (ha : a.contains n)
    (hb : b.contains n) : (Int.lcm a.modulus b.modulus : Int) ∣ n - x :=
  coe_lcm_dvd ((contains_iff_dvd hxa).1 ha) ((contains_iff_dvd hxb).1 hb)

lemma contains_meet (ha : a.Canonical) (hb : b.Canonical) (hma : a.contains n)
    (hmb : b.contains n) : (a.meet b).contains n := by
  rcases meet_cases ha hb with ⟨hnone, -⟩ | ⟨x, hxa, hxb, h⟩
  · exact absurd hmb (hnone n hma)
  · rw [h]
    exact ofResidue_contains (lcm_dvd_of_contains hxa hxb hma hmb)

end Congruence

end StaticAnalysis
