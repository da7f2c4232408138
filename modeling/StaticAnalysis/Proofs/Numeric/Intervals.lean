import StaticAnalysis.Numeric.Interval
import StaticAnalysis.Proofs.Numeric.Bounds

/-!
# Order of intervals

Inclusion of intervals is a preorder, joins and widenings are upper bounds in it, and every
operation produces a *proper* interval: its finite ends are words, and one that has members neither
starts at `+∞` nor ends at `-∞`.
-/

namespace StaticAnalysis

open StaticAnalysis.Bound List

namespace Interval

variable {i j : Interval} {l h : Bound} {n : Int}

lemma isEmpty_iff : i.isEmpty ↔ i.high < i.low := by simp [isEmpty]

lemma isEmpty_eq_false : i.isEmpty = false ↔ i.low ≤ i.high := by simp [isEmpty]

@[simp] lemma isEmpty_bottom : bottom.isEmpty := by decide

@[simp] lemma isEmpty_top : top.isEmpty = false := by decide

@[simp] lemma isEmpty_mk_false : (⟨l, h⟩ : Interval).isEmpty = false ↔ l ≤ h :=
  isEmpty_eq_false

lemma le_iff : i.le j ↔ i.isEmpty ∨ j.low ≤ i.low ∧ i.high ≤ j.high := by
  unfold le
  by_cases hi : i.isEmpty = true
  · simp [hi]
  · have hi' : i.low ≤ i.high := isEmpty_eq_false.1 (by simpa using hi)
    simp only [Bool.or_eq_true, Bool.and_eq_true, Bool.not_eq_true', decide_eq_true_eq]
    constructor
    · rintro (h | ⟨⟨-, hl⟩, hh⟩)
      · exact .inl h
      · exact .inr ⟨hl, hh⟩
    · rintro (h | ⟨hl, hh⟩)
      · exact .inl h
      · exact .inr ⟨⟨isEmpty_eq_false.2 (hl.trans (hi'.trans hh)), hl⟩, hh⟩

@[simp] lemma le_self (i : Interval) : i.le i := le_iff.2 (.inr ⟨le_rfl, le_rfl⟩)

lemma isEmpty_of_le (h : i.le j) (hj : j.isEmpty) : i.isEmpty := by
  rcases le_iff.1 h with hi | ⟨hl, hh⟩
  · exact hi
  · exact isEmpty_iff.2 (hh.trans_lt ((isEmpty_iff.1 hj).trans_le hl))

lemma le_trans {k : Interval} (hij : i.le j) (hjk : j.le k) : i.le k := by
  rcases le_iff.1 hij with hi | ⟨hl, hh⟩
  · exact le_iff.2 (.inl hi)
  · rcases le_iff.1 hjk with hj | ⟨hl', hh'⟩
    · exact le_iff.2 (.inl (isEmpty_of_le hij hj))
    · exact le_iff.2 (.inr ⟨hl'.trans hl, hh.trans hh'⟩)

lemma le_join_left (i j : Interval) : i.le (i.join j) := by
  unfold join
  split
  next hi => exact le_iff.2 (.inl hi)
  next =>
    split
    · exact le_self i
    · exact le_iff.2 (.inr ⟨min_le_left _ _, le_max_left _ _⟩)

lemma le_join_right (i j : Interval) : j.le (i.join j) := by
  unfold join
  split
  next => exact le_self j
  next =>
    split
    next hj => exact le_iff.2 (.inl hj)
    next => exact le_iff.2 (.inr ⟨min_le_right _ _, le_max_right _ _⟩)

lemma le_widen_left (i j : Interval) : i.le (i.widen j) := by
  unfold widen
  split
  next hi => exact le_iff.2 (.inl hi)
  next =>
    split
    · exact le_self i
    · refine le_iff.2 (.inr ⟨?_, ?_⟩) <;> dsimp only <;> split <;> simp

lemma le_widen_right (i j : Interval) : j.le (i.widen j) := by
  unfold widen
  split
  next => exact le_self j
  next =>
    split
    next hj => exact le_iff.2 (.inl hj)
    next => refine le_iff.2 (.inr ⟨?_, ?_⟩) <;> dsimp only <;> split <;> simp_all

lemma isEmpty_join_left (hi : i.isEmpty = false) : (i.join j).isEmpty = false := by
  rw [← Bool.not_eq_true] at hi ⊢
  exact fun h => hi (isEmpty_of_le (le_join_left i j) h)

lemma isEmpty_widen_left (hi : i.isEmpty = false) : (i.widen j).isEmpty = false := by
  rw [← Bool.not_eq_true] at hi ⊢
  exact fun h => hi (isEmpty_of_le (le_widen_left i j) h)

lemma le_top (i : Interval) : i.le top :=
  le_iff.2 (.inr ⟨negInf_le _, le_posInf _⟩)

lemma join_comm (hi : i.isEmpty = false) (hj : j.isEmpty = false) : i.join j = j.join i := by
  simp [join, hi, hj, min_comm, max_comm]

lemma between_eq (hlh : l ≤ h) (hl : l ≠ .posInf) (hh : h ≠ .negInf) : between l h = ⟨l, h⟩ := by
  unfold between
  rw [if_neg]
  simp [hl, hh, hlh]

lemma between_of_isEmpty_eq_false (hlh : (between l h).isEmpty = false) : between l h = ⟨l, h⟩ := by
  unfold between at hlh ⊢
  split
  next hc => simp [hc] at hlh
  next => rfl

lemma le_narrow (hji : j.le i) (hl : j.low ≠ .posInf) (hh : j.high ≠ .negInf) :
    j.le (i.narrow j) := by
  rcases le_iff.1 hji with hj | ⟨hlow, hhigh⟩
  · exact le_iff.2 (.inl hj)
  by_cases hj : j.isEmpty = true
  · exact le_iff.2 (.inl hj)
  rw [Bool.not_eq_true] at hj
  have hlh := isEmpty_eq_false.1 hj
  have hi : i.isEmpty = false := isEmpty_eq_false.2 (hlow.trans (hlh.trans hhigh))
  have hlow' : (if i.low = .negInf then j.low else i.low) ≤ j.low := by
    split
    exacts [le_rfl, hlow]
  have hhigh' : j.high ≤ (if i.high = .posInf then j.high else i.high) := by
    split
    exacts [le_rfl, hhigh]
  simp only [narrow, hi, hj, Bool.or_self]
  rw [if_neg (by simp), between_eq (hlow'.trans (hlh.trans hhigh'))]
  · exact le_iff.2 (.inr ⟨hlow', hhigh'⟩)
  · intro he
    exact hl (posInf_le_iff.1 (he ▸ hlow'))
  · intro he
    exact hh (le_negInf_iff.1 (he ▸ hhigh'))

@[simp] lemma constant_eq (n : Int) : constant n = ⟨.finite n, .finite n⟩ :=
  between_eq le_rfl (by simp) (by simp)

lemma constant?_eq_some : i.constant? = some n ↔ i = ⟨.finite n, .finite n⟩ := by
  obtain ⟨l, h⟩ := i
  unfold constant?
  cases l <;> cases h <;> simp
  constructor <;>
  · rintro ⟨rfl, rfl⟩
    exact ⟨rfl, rfl⟩

lemma eq_constant_of_le (hi : i.isEmpty = false) (h : i.le j) (hj : j.constant? = some n) :
    i.constant? = some n := by
  rw [constant?_eq_some] at hj ⊢
  subst hj
  rcases le_iff.1 h with he | ⟨hl, hh⟩
  · simp [he] at hi
  · have hlh := isEmpty_eq_false.1 hi
    obtain ⟨l, u⟩ := i
    have hl' : l = .finite n := le_antisymm (hlh.trans hh) hl
    have hu' : u = .finite n := le_antisymm hh (hl.trans hlh)
    rw [hl', hu']

/-! ### Proper intervals -/

/-- Finite ends are words, and an interval with members neither starts at `+∞` nor ends
at `-∞`. -/
structure Proper (i : Interval) : Prop where
  low_fits : i.low.Fits
  high_fits : i.high.Fits
  low_ne : i.isEmpty = false → i.low ≠ .posInf
  high_ne : i.isEmpty = false → i.high ≠ .negInf

lemma proper_bottom : bottom.Proper := ⟨trivial, trivial, by simp, by simp⟩

lemma proper_top : top.Proper := ⟨trivial, trivial, by simp [top], by simp [top]⟩

lemma proper_between (hl : l.Fits) (hh : h.Fits) : (between l h).Proper := by
  unfold between
  split
  next => exact proper_bottom
  next hne =>
    push Not at hne
    exact ⟨hl, hh, fun _ => hne.2.1, fun _ => hne.2.2⟩

lemma proper_constant (h : Word.fits n) : (constant n).Proper :=
  proper_between h h

lemma proper_atLeast (h : Word.fits n) : (atLeast n).Proper :=
  proper_between h trivial

lemma proper_atMost (h : Word.fits n) : (atMost n).Proper :=
  proper_between trivial h

section

variable (hi : i.Proper)
include hi

lemma fits_of_constant? (h : i.constant? = some n) : Word.fits n := by
  rw [constant?_eq_some] at h
  simpa [h] using hi.low_fits

lemma proper_join (hj : j.Proper) : (i.join j).Proper := by
  unfold join
  split
  next => exact hj
  next hie =>
    split
    next => exact hi
    next hje =>
      have hlow := hi.low_ne (by simpa using hie)
      have hhigh := hi.high_ne (by simpa using hie)
      refine ⟨fits_min hi.low_fits hj.low_fits, fits_max hi.high_fits hj.high_fits,
        fun _ he => hlow ?_, fun _ he => hhigh ?_⟩
      · exact posInf_le_iff.1 (he ▸ min_le_left i.low j.low)
      · exact le_negInf_iff.1 (he ▸ le_max_left i.high j.high)

lemma proper_meet (hj : j.Proper) : (i.meet j).Proper :=
  proper_between (fits_max hi.low_fits hj.low_fits) (fits_min hi.high_fits hj.high_fits)

lemma proper_widen (hj : j.Proper) : (i.widen j).Proper := by
  unfold widen
  split
  next => exact hj
  next hie =>
    split
    next => exact hi
    next =>
      have hlow := hi.low_ne (by simpa using hie)
      have hhigh := hi.high_ne (by simpa using hie)
      refine ⟨?_, ?_, fun _ => ?_, fun _ => ?_⟩ <;> dsimp only <;> split
      exacts [trivial, hi.low_fits, trivial, hi.high_fits, by simp, hlow, by simp, hhigh]

lemma proper_narrow (hj : j.Proper) : (i.narrow j).Proper := by
  unfold narrow
  split
  · exact proper_bottom
  · refine proper_between ?_ ?_ <;> split
    exacts [hj.low_fits, hi.low_fits, hj.high_fits, hi.high_fits]

end

lemma proper_neg (i : Interval) : i.neg.Proper := by
  unfold neg
  split
  · exact proper_bottom
  · exact proper_between (fits_neg _) (fits_neg _)

lemma proper_add (i j : Interval) : (i.add j).Proper := by
  unfold add
  split
  · exact proper_bottom
  · exact proper_between (fits_add _ _) (fits_add _ _)

lemma proper_sub (i j : Interval) : (i.sub j).Proper := proper_add _ _

lemma proper_span {corners : List Bound} (h : ∀ b ∈ corners, b.Fits) : (span corners).Proper := by
  unfold span
  split
  next low high hlow hhigh =>
    exact proper_between (h low (min?_mem hlow)) (h high (max?_mem hhigh))
  next => exact proper_bottom

lemma proper_mul (i j : Interval) : (i.mul j).Proper := by
  unfold mul
  split
  · exact proper_bottom
  · refine proper_span fun b hb => ?_
    simp only [mem_cons, not_mem_nil, or_false] at hb
    rcases hb with rfl | rfl | rfl | rfl <;> exact fits_mul _ _

lemma proper_divSign (i divisor : Interval) : (i.divSign divisor).Proper := by
  unfold divSign
  split
  · exact proper_bottom
  · refine proper_span fun b hb => ?_
    simp only [mem_flatMap] at hb
    obtain ⟨a, -, d, -, hq⟩ := hb
    exact fits_of_mem_quotients hq

lemma proper_div (i j : Interval) : (i.div j).Proper := by
  unfold div
  split
  · exact proper_bottom
  · exact proper_join (proper_divSign _ _) (proper_divSign _ _)

lemma proper_remWithin {limit : Bound} (hi : i.Proper) (hl : limit.Fits) :
    (i.remWithin limit).Proper := by
  have zero : (Bound.finite 0).Fits := (by decide : Word.fits 0 = true)
  refine proper_between ?_ ?_ <;> split
  exacts [zero, fits_max hi.low_fits (fits_neg _), zero, fits_min hi.high_fits hl]

lemma proper_rem (hi : i.Proper) (hj : j.Proper) : (i.rem j).Proper := by
  unfold rem
  split
  · exact proper_bottom
  · extract_lets within
    have hwithin : ∀ limit : Bound, limit.Fits → (within limit).Proper := by
      intro limit hl
      dsimp only [within]
      split
      next x c hx hc =>
        split
        · exact proper_remWithin hi hl
        · exact proper_constant (Word.fits_tmod (fits_of_constant? hi hx))
      next => exact proper_remWithin hi hl
    split
    next m hm =>
      split
      next hpos =>
        have hfits : Word.fits m = true := by
          have := fits_max (fits_neg j.low) hj.high_fits
          rwa [hm] at this
        refine hwithin _ (Word.fits_of_between
          (by decide : Word.fits 0 = true) hfits ?_ ?_) <;> omega
      next => exact proper_bottom
    next => exact hwithin .posInf trivial

lemma fits_scaleDown (c : Int) (round : Int → Int) (b : Bound) : (scaleDown c round b).Fits := by
  cases b with
  | finite n => exact fits_ofInt _
  | negInf | posInf => simp only [scaleDown]; split <;> trivial

lemma proper_mulPreimage (i : Interval) (c : Int) : (i.mulPreimage c).Proper := by
  unfold mulPreimage
  split
  · exact proper_top
  · exact proper_between (fits_scaleDown _ _ _) (fits_scaleDown _ _ _)

lemma proper_divPreimagePos (i : Interval) (c : Int) : (i.divPreimagePos c).Proper := by
  obtain ⟨l, h⟩ := i
  refine proper_between ?_ ?_
  · cases l <;> first | trivial | dsimp only; split <;> exact Word.fits_clamp _
  · cases h <;> first | trivial | dsimp only; split <;> exact Word.fits_clamp _

lemma proper_divPreimage (i : Interval) (c : Int) : (i.divPreimage c).Proper := by
  unfold divPreimage
  split
  · exact proper_top
  · split <;> exact proper_divPreimagePos _ _

/-! ## Members -/

variable {i : Interval} {n : Int}

lemma contains_iff : i.contains n ↔ i.low ≤ .finite n ∧ .finite n ≤ i.high := by
  simp only [contains, Bool.and_eq_true, Bool.not_eq_true', decide_eq_true_eq]
  refine ⟨fun h => ⟨h.1.2, h.2⟩, fun h => ⟨⟨?_, h.1⟩, h.2⟩⟩
  exact isEmpty_eq_false.2 (h.1.trans h.2)

lemma isEmpty_of_contains (h : i.contains n) : i.isEmpty = false := by
  obtain ⟨hl, hh⟩ := contains_iff.1 h
  exact isEmpty_eq_false.2 (hl.trans hh)

lemma contains_top : top.contains n := contains_iff.2 ⟨negInf_le _, le_posInf _⟩

lemma contains_between : (between l h).contains n ↔ l ≤ .finite n ∧ .finite n ≤ h := by
  constructor
  · intro hc
    unfold between at hc
    split at hc
    · simp [contains] at hc
    · exact contains_iff.1 hc
  · rintro ⟨hl, hh⟩
    rw [between_eq (hl.trans hh), contains_iff]
    · exact ⟨hl, hh⟩
    · rintro rfl
      simp at hl
    · rintro rfl
      simp at hh

lemma contains_of_constant? (h : i.constant? = some n) : i.contains n := by
  rw [constant?_eq_some.1 h]
  exact contains_iff.2 ⟨le_rfl, le_rfl⟩

end Interval
end StaticAnalysis
