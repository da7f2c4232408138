import Mathlib.Tactic.Ring
import StaticAnalysis.Numeric.IntVal
import StaticAnalysis.Proofs.Arith.Faults
import StaticAnalysis.Proofs.Numeric.Congruences
import StaticAnalysis.Proofs.Numeric.Intervals

/-!
# Reduced integers

The order of abstract integers compares the interval and the congruence class one by one, while
joins and meets reduce the two against each other.  A join is therefore an upper bound only of
values that are already *tight*: their finite ends lie in the class, and a constant is one in both
components.

`IntVal.le_reduced` is the fact behind all order laws.  `IntVal.tight_of_reduced` says that
reduction produces tight values, and widening, which does not reduce, keeps them tight.
-/

namespace StaticAnalysis

open StaticAnalysis.Bound Congruence Fault Int StaticAnalysis.Interval Word

namespace IntVal

/-! ## Tight values -/

/-- Both components are in the form that their operations keep, and nothing is said of how they
fit together. -/
structure WellFormed (a : IntVal) : Prop where
  interval : a.interval.Proper
  congruence : a.congruence.Canonical

/-- Each component is at least as precise as the other allows.  An end that could not move into the
class without leaving the word range stays at the end of the range. -/
structure Tight (a : IntVal) : Prop where
  interval : a.interval.Proper
  congruence : a.congruence.Canonical
  constant_iff : a.isBottom = false →
    ∀ n, a.interval.constant? = some n ↔ a.congruence = .residue n 0
  low_mem : a.isBottom = false → ∀ {c k l : Int}, a.congruence = .residue c k → 1 < k →
    a.interval.low = .finite l → k ∣ l - c ∨ l = Word.greatest
  high_mem : a.isBottom = false → ∀ {c k h : Int}, a.congruence = .residue c k → 1 < k →
    a.interval.high = .finite h → k ∣ h - c ∨ h = Word.least

variable {a r : IntVal} {n c k l x u : Int} {i : Interval} {b b' d : Bound} {g : Congruence}

lemma Tight.wellFormed (h : a.Tight) : a.WellFormed := ⟨h.interval, h.congruence⟩

@[simp] lemma isBottom_bottom : bottom.isBottom := by decide

@[simp] lemma isBottom_constant (n : Int) : (constant n).isBottom = false := by
  simp [isBottom, constant, Congruence.constant, Congruence.isBottom]

lemma isBottom_eq_false :
    a.isBottom = false ↔ a.interval.isEmpty = false ∧ a.congruence ≠ .bottom := by
  rw [isBottom, Bool.or_eq_false_iff, ← Bool.not_eq_true a.congruence.isBottom,
    Congruence.isBottom_iff]

lemma tight_bottom : bottom.Tight where
  interval := proper_bottom
  congruence := trivial
  constant_iff := by simp
  low_mem := by simp
  high_mem := by simp

lemma tight_top : top.Tight where
  interval := proper_top
  congruence := canonical_top
  constant_iff _ n := by simp [top, Interval.top, Interval.constant?, Congruence.top]
  low_mem _ := by simp [top, Interval.top]
  high_mem _ := by simp [top, Interval.top]

lemma tight_constant (h : Word.fits n) : (constant n).Tight where
  interval := proper_constant h
  congruence := canonical_constant h
  constant_iff _ m := by simp [constant, Congruence.constant, constant?_eq_some]
  low_mem _ c k l hc hk := by simp [constant, Congruence.constant] at hc; omega
  high_mem _ c k l hc hk := by simp [constant, Congruence.constant] at hc; omega

lemma tight_unit (hi : i.Proper) (hc : (Congruence.residue c 1).Canonical)
    (hn : i.constant? = none) : (⟨i, .residue c 1⟩ : IntVal).Tight where
  interval := hi
  congruence := hc
  constant_iff _ n := by simp [hn]
  low_mem _ c k l h hk := by simp at h; omega
  high_mem _ c k l h hk := by simp at h; omega

/-! ## Moving an end into the class -/

lemma add_emod_le (hk : 0 < k) (hn : k ∣ n - c) (hl : l ≤ n) : l + (c - l) % k ≤ n := by
  have hdvd : k ∣ (n - l) - (c - l) % k := by
    have h := dvd_add hn (dvd_self_sub_emod : k ∣ (c - l) - (c - l) % k)
    have e : n - c + (c - l - (c - l) % k) = n - l - (c - l) % k := by ring
    rwa [e] at h
  have hlt := emod_lt_of_pos (c - l) hk
  obtain ⟨q, hq⟩ := hdvd
  have hq0 : 0 ≤ q := by
    by_contra hneg
    have : k * q ≤ k * (-1) := Int.mul_le_mul_of_nonneg_left (by omega) hk.le
    omega
  have := Int.mul_nonneg hk.le hq0
  omega

lemma dvd_add_emod (c k l : Int) : k ∣ l + (c - l) % k - c := by
  have h : k ∣ (c - l) - (c - l) % k := dvd_self_sub_emod
  have e : l + (c - l) % k - c = -((c - l) - (c - l) % k) := by ring
  rw [e]
  exact (Int.dvd_neg).2 h

lemma raiseLow_eq_ok (h : raiseLow c k b = .ok b') :
    (∃ l, b = .finite l ∧ b' = .finite (clamp (l + (c - l) % k))) ∨
      ((∀ l, b ≠ .finite l) ∧ b' = b) := by
  cases b with
  | finite l =>
    obtain ⟨d, hd, h⟩ := bind_eq_ok.1 h
    cases eq_of_sub hd
    cases h
    exact .inl ⟨l, rfl, rfl⟩
  | negInf | posInf =>
    cases h
    exact .inr ⟨by simp, rfl⟩

lemma lowerHigh_eq_ok (h : lowerHigh c k b = .ok b') :
    (∃ u, b = .finite u ∧ b' = .finite (clamp (u - (u - c) % k))) ∨
      ((∀ u, b ≠ .finite u) ∧ b' = b) := by
  cases b with
  | finite u =>
    obtain ⟨d, hd, h⟩ := bind_eq_ok.1 h
    cases eq_of_sub hd
    cases h
    exact .inl ⟨u, rfl, rfl⟩
  | negInf | posInf =>
    cases h
    exact .inr ⟨by simp, rfl⟩

lemma exists_bind_sub {y : Int} {f : Int → Bound} :
    (∃ b', (do pure (f (← Word.sub x y)) : Except Fault Bound) = .ok b') ↔ Word.fits (x - y) := by
  constructor
  · rintro ⟨b', h⟩
    obtain ⟨d, hd, -⟩ := bind_eq_ok.1 h
    exact (exact_eq_ok.1 hd).1
  · intro hfits
    exact ⟨_, bind_eq_ok.2 ⟨_, if_pos hfits, rfl⟩⟩

lemma exists_raiseLow_iff :
    (∃ b', raiseLow c k b = .ok b') ↔ ∀ l, b = .finite l → Word.fits (c - l) := by
  cases b with
  | negInf | posInf => exact iff_of_true ⟨_, rfl⟩ (by simp)
  | finite l =>
    simp only [Bound.finite.injEq, forall_eq']
    exact exists_bind_sub

lemma exists_lowerHigh_iff :
    (∃ b', lowerHigh c k b = .ok b') ↔ ∀ u, b = .finite u → Word.fits (u - c) := by
  cases b with
  | negInf | posInf => exact iff_of_true ⟨_, rfl⟩ (by simp)
  | finite u =>
    simp only [Bound.finite.injEq, forall_eq']
    exact exists_bind_sub

lemma clamp_eq_or (h : least ≤ x) : clamp x = x ∨ clamp x = greatest := by
  unfold clamp
  rw [if_neg (by omega)]
  split
  exacts [.inr rfl, .inl rfl]

lemma clamp_eq_or' (h : x ≤ greatest) : clamp x = x ∨ clamp x = least := by
  unfold clamp
  split
  · exact .inr rfl
  · exact .inl (if_neg (by omega))

lemma fits_raiseLow (hb : b.Fits) (h : raiseLow c k b = .ok b') : b'.Fits := by
  rcases raiseLow_eq_ok h with ⟨l, -, rfl⟩ | ⟨-, rfl⟩
  exacts [fits_clamp _, hb]

lemma fits_lowerHigh (hb : b.Fits) (h : lowerHigh c k b = .ok b') : b'.Fits := by
  rcases lowerHigh_eq_ok h with ⟨u, -, rfl⟩ | ⟨-, rfl⟩
  exacts [fits_clamp _, hb]

section

variable (hk : 0 < k) (hb : b.Fits)
include hk hb

lemma le_raiseLow (h : raiseLow c k b = .ok b') : b ≤ b' := by
  rcases raiseLow_eq_ok h with ⟨l, rfl, rfl⟩ | ⟨-, rfl⟩
  · have := emod_nonneg (c - l) hk.ne'
    refine finite_le_finite.2 ?_
    calc l = clamp l := (clamp_of_fits hb).symm
      _ ≤ clamp (l + (c - l) % k) := clamp_mono (by omega)
  · exact le_rfl

lemma lowerHigh_le (h : lowerHigh c k b = .ok b') : b' ≤ b := by
  rcases lowerHigh_eq_ok h with ⟨u, rfl, rfl⟩ | ⟨-, rfl⟩
  · have := emod_nonneg (u - c) hk.ne'
    refine finite_le_finite.2 ?_
    calc clamp (u - (u - c) % k) ≤ clamp u := clamp_mono (by omega)
      _ = u := clamp_of_fits hb
  · exact le_rfl

lemma raiseLow_mem (h : raiseLow c k b = .ok (.finite l)) : k ∣ l - c ∨ l = greatest := by
  rcases raiseLow_eq_ok h with ⟨l₀, rfl, heq⟩ | ⟨hne, rfl⟩
  · have hle : least ≤ l₀ + (c - l₀) % k :=
      le_trans (least_le_of_fits hb) (by have := emod_nonneg (c - l₀) hk.ne'; omega)
    cases heq
    rcases clamp_eq_or hle with h | h
    · rw [h]
      exact .inl (dvd_add_emod c k l₀)
    · exact .inr h
  · exact absurd rfl (hne l)

lemma lowerHigh_mem (h : lowerHigh c k b = .ok (.finite u)) : k ∣ u - c ∨ u = least := by
  rcases lowerHigh_eq_ok h with ⟨u₀, rfl, heq⟩ | ⟨hne, rfl⟩
  · have hle : u₀ - (u₀ - c) % k ≤ greatest :=
      le_trans (by have := emod_nonneg (u₀ - c) hk.ne'; omega) (le_greatest_of_fits hb)
    cases heq
    rcases clamp_eq_or' hle with h | h
    · refine .inl ?_
      rw [h, sub_right_comm]
      exact dvd_self_sub_emod
    · exact .inr h
  · exact absurd rfl (hne u)

end

lemma raiseLow_le (hk : 0 < k) (h : raiseLow c k b = .ok b') (hbd : b ≤ d) (hfits : b.Fits ∨ d.Fits)
    (hmem : ∀ n, d = .finite n → k ∣ n - c ∨ n = greatest) : b' ≤ d := by
  rcases raiseLow_eq_ok h with ⟨l, rfl, rfl⟩ | ⟨-, rfl⟩
  · cases d with
    | negInf => simp at hbd
    | posInf => simp
    | finite n =>
      rw [finite_le_finite] at hbd ⊢
      rcases hmem n rfl with hn | rfl
      · have hleast : least ≤ n :=
          hfits.elim (fun hb => (least_le_of_fits hb).trans hbd) least_le_of_fits
        have := add_emod_le hk hn hbd
        unfold clamp
        split_ifs <;> omega
      · exact le_greatest_of_fits (fits_clamp _)
  · exact hbd

lemma le_lowerHigh (hk : 0 < k) (h : lowerHigh c k b = .ok b') (hbd : d ≤ b)
    (hfits : b.Fits ∨ d.Fits) (hmem : ∀ n, d = .finite n → k ∣ n - c ∨ n = least) : d ≤ b' := by
  rcases lowerHigh_eq_ok h with ⟨u, rfl, rfl⟩ | ⟨-, rfl⟩
  · cases d with
    | negInf => simp
    | posInf => simp at hbd
    | finite n =>
      rw [finite_le_finite] at hbd ⊢
      rcases hmem n rfl with hn | rfl
      · have hgreatest : n ≤ greatest :=
          hfits.elim (fun hb => hbd.trans (le_greatest_of_fits hb)) le_greatest_of_fits
        -- The mirror image of `add_emod_le`.
        have hn' : k ∣ -n - -c := by rw [neg_sub_neg, dvd_sub_comm]; exact hn
        have := add_emod_le hk hn' (neg_le_neg hbd)
        have e : -c - -u = u - c := by ring
        rw [e] at this
        unfold clamp
        split_ifs <;> omega
      · exact least_le_of_fits (fits_clamp _)
  · exact hbd

/-! ## Reduction -/

lemma reduced_stride (hi : i.isEmpty = false) (hk : 1 < k) (h : reduced i (.residue c k) = .ok r) :
    ∃ low high, raiseLow c k i.low = .ok low ∧ lowerHigh c k i.high = .ok high ∧
      r = if (between low high).isEmpty then bottom
        else match (between low high).constant? with
          | some n => constant n
          | none => ⟨between low high, .residue c k⟩ := by
  unfold reduced at h
  rw [if_neg (by simp [hi])] at h
  dsimp only at h
  rw [if_neg (by omega), if_pos hk] at h
  obtain ⟨low, hlow, h⟩ := bind_eq_ok.1 h
  obtain ⟨high, hhigh, h⟩ := bind_eq_ok.1 h
  refine ⟨low, high, hlow, hhigh, ?_⟩
  split at h
  next he => cases h; rw [if_pos he]
  next he =>
    rw [if_neg he]
    cases hn : (between low high).constant? <;> rw [hn] at h <;> cases h <;> rfl

lemma reduced_unit (hi : i.isEmpty = false) (hk : k ≠ 0) (hk' : ¬ 1 < k)
    (h : reduced i (.residue c k) = .ok r) : (∃ n, i.constant? = some n ∧ r = constant n) ∨
      (i.constant? = none ∧ r = ⟨i, .residue c k⟩) := by
  unfold reduced at h
  rw [if_neg (by simp [hi])] at h
  dsimp only at h
  rw [if_neg hk, if_neg hk'] at h
  split at h
  next n hn => cases h; exact .inl ⟨n, hn, rfl⟩
  next hn => cases h; exact .inr ⟨hn, rfl⟩

/-- The ends of an interval with members can be rounded to a class: where the class has a stride,
their distances from its representative are words. -/
def Roundable (i : Interval) (g : Congruence) : Prop :=
  i.isEmpty = false → ∀ c k, g = .residue c k → 1 < k →
    (∀ l, i.low = .finite l → Word.fits (c - l) = true) ∧
      ∀ u, i.high = .finite u → Word.fits (u - c) = true

/-- Reduction returns unless an end has to be rounded over a distance that is not a word. -/
lemma exists_reduced_iff : (∃ r, reduced i g = .ok r) ↔ Roundable i g := by
  constructor
  · rintro ⟨r, h⟩ hie c k rfl hk
    obtain ⟨low, high, hlow, hhigh, -⟩ := reduced_stride hie hk h
    exact ⟨exists_raiseLow_iff.1 ⟨low, hlow⟩, exists_lowerHigh_iff.1 ⟨high, hhigh⟩⟩
  · intro hround
    unfold reduced
    split
    · exact ⟨_, rfl⟩
    next hie =>
    split
    · exact ⟨_, rfl⟩
    next c k =>
    split
    · exact ⟨_, rfl⟩
    split
    next hk =>
      obtain ⟨hl, hu⟩ := hround (by simpa using hie) c k rfl hk
      obtain ⟨low, hlow⟩ := exists_raiseLow_iff (k := k).2 hl
      obtain ⟨high, hhigh⟩ := exists_lowerHigh_iff (k := k).2 hu
      rw [hlow, hhigh]
      dsimp only [bind, Except.bind]
      split
      · exact ⟨_, rfl⟩
      split <;> exact ⟨_, rfl⟩
    · split <;> exact ⟨_, rfl⟩

/-- What reduction can return: nothing, a constant, an interval that has no stride to follow, or an
interval whose ends were both rounded. -/
lemma reduced_cases (hi : i.Proper) (hg : g.Canonical) (h : reduced i g = .ok r) : r = bottom ∨
    (∃ n, Word.fits n ∧ i.contains n ∧ g.contains n ∧ r = constant n) ∨
    (i.isEmpty = false ∧ i.constant? = none ∧ g = .top ∧ r = ⟨i, .top⟩) ∨
    ∃ c k low high, g = .residue c k ∧ 1 < k ∧ raiseLow c k i.low = .ok low ∧
      lowerHigh c k i.high = .ok high ∧ between low high = ⟨low, high⟩ ∧
      (⟨low, high⟩ : Interval).isEmpty = false ∧ (⟨low, high⟩ : Interval).constant? = none ∧
      r = ⟨⟨low, high⟩, .residue c k⟩ := by
  by_cases hie : i.isEmpty = true
  · simp only [reduced, hie, if_true] at h
    cases h
    exact .inl rfl
  rw [Bool.not_eq_true] at hie
  cases g with
  | bottom =>
    simp only [reduced, hie, Bool.false_eq_true, if_false] at h
    cases h
    exact .inl rfl
  | residue c k =>
    obtain ⟨hcf, -, hk0, hc⟩ := hg
    by_cases hk : k = 0
    · subst hk
      simp only [reduced, hie, Bool.false_eq_true, if_false, if_true] at h
      cases h
      by_cases hcont : i.contains c = true
      · exact .inr (.inl ⟨c, hcf, hcont, residue_contains.2 (by simp), if_pos hcont⟩)
      · exact .inl (if_neg hcont)
    by_cases hk1 : 1 < k
    · obtain ⟨low, high, hlow, hhigh, hr⟩ := reduced_stride hie hk1 h
      have hpos : 0 < k := by omega
      by_cases hempty : (between low high).isEmpty = true
      · rw [if_pos hempty] at hr
        exact .inl hr
      rw [if_neg hempty] at hr
      have hbetween := between_of_isEmpty_eq_false (by simpa using hempty)
      rw [hbetween] at hempty hr
      cases hconst : (⟨low, high⟩ : Interval).constant? with
      | some n =>
        rw [hconst] at hr
        cases constant?_eq_some.1 hconst
        have hin := Interval.contains_iff.2 ⟨le_raiseLow hpos hi.low_fits hlow,
          lowerHigh_le hpos hi.high_fits hhigh⟩
        -- At most one of the ends was cut off at the end of the word range.
        have hmem : k ∣ n - c := by
          rcases raiseLow_mem hpos hi.low_fits hlow with hmem | hgreatest
          · exact hmem
          · exact (lowerHigh_mem hpos hi.high_fits hhigh).resolve_right fun hleast =>
              absurd (hgreatest.symm.trans hleast) (by decide)
        exact .inr (.inl ⟨n, fits_raiseLow hi.low_fits hlow, hin, residue_contains.2 hmem, hr⟩)
      | none =>
        rw [hconst] at hr
        exact .inr (.inr (.inr ⟨c, k, low, high, rfl, hk1, hlow, hhigh,
          hbetween, by simpa using hempty, hconst, hr⟩))
    · have hone : k = 1 := by omega
      subst hone
      have hzero : c = 0 := by have := hc (by decide); omega
      subst hzero
      rcases reduced_unit hie (by decide) (by decide) h with ⟨n, hn, hr⟩ | ⟨hconst, hr⟩
      · exact .inr (.inl ⟨n, fits_of_constant? hi hn, contains_of_constant? hn,
          residue_contains.2 (one_dvd _), hr⟩)
      · exact .inr (.inr (.inl ⟨hie, hconst, rfl, hr⟩))

lemma tight_of_reduced (hi : i.Proper) (hg : g.Canonical) (h : reduced i g = .ok r) : r.Tight := by
  rcases reduced_cases hi hg h with rfl | ⟨n, hn, -, -, rfl⟩ | ⟨-, hconst, -, rfl⟩ |
    ⟨c, k, low, high, rfl, hk, hlow, hhigh, hbetween, -, hconst, rfl⟩
  · exact tight_bottom
  · exact tight_constant hn
  · exact tight_unit hi canonical_top hconst
  · have hproper : (⟨low, high⟩ : Interval).Proper := hbetween ▸
      proper_between (fits_raiseLow hi.low_fits hlow) (fits_lowerHigh hi.high_fits hhigh)
    refine ⟨hproper, hg, fun _ n => by simp [hconst]; omega, ?_, ?_⟩
    · rintro - c' k' l hck - rfl
      cases hck
      exact raiseLow_mem (by omega) hi.low_fits hlow
    · rintro - c' k' u hck - rfl
      cases hck
      exact lowerHigh_mem (by omega) hi.high_fits hhigh

lemma exists_residue (h : a.isBottom = false) : ∃ c k, a.congruence = .residue c k := by
  cases hcong : a.congruence with
  | bottom => exact absurd hcong (isBottom_eq_false.1 h).2
  | residue c k => exact ⟨c, k, rfl⟩

lemma Tight.dvd_sub_of_le {e : Int} (ha : a.Tight) (hab : a.isBottom = false) (hk : 1 < k)
    (hle : a.congruence.le (.residue c k)) (hconst : ∀ m, a.interval.constant? = some m → n = m)
    (hstride : ∀ c k, a.congruence = .residue c k → 1 < k → k ∣ n - c ∨ n = e) :
    k ∣ n - c ∨ n = e := by
  obtain ⟨ca, ka, hcong⟩ := exists_residue hab
  rw [hcong] at hle
  obtain ⟨hdvd, hc⟩ := residue_le_residue.1 hle
  have hn : k ∣ n - ca ∨ n = e := by
    by_cases hka : ka = 0
    · simp [hconst ca ((ha.constant_iff hab ca).2 (hka ▸ hcong))]
    · have hcan := ha.congruence
      rw [hcong] at hcan
      have hpos : 0 < ka := lt_of_le_of_ne hcan.2.2.1 (Ne.symm hka)
      have hkka : k ≤ ka := le_of_dvd hpos hdvd
      exact (hstride ca ka hcong (by omega)).imp_left hdvd.trans
  refine hn.imp_left fun hn => ?_
  have := dvd_add hn hc
  rwa [sub_add_sub_cancel] at this

section

variable (ha : a.Tight) (hab : a.isBottom = false)
include ha hab

lemma Tight.low_mem_of_le (hk : 1 < k)
    (hle : a.congruence.le (.residue c k)) (hl : a.interval.low = .finite l) :
    k ∣ l - c ∨ l = greatest := by
  refine ha.dvd_sub_of_le hab hk hle (fun m hm => ?_) fun c k hcong hk => ha.low_mem hab hcong hk hl
  rw [constant?_eq_some.1 hm] at hl
  cases hl
  rfl

lemma Tight.high_mem_of_le (hk : 1 < k)
    (hle : a.congruence.le (.residue c k)) (hu : a.interval.high = .finite u) :
    k ∣ u - c ∨ u = least := by
  refine ha.dvd_sub_of_le hab hk hle (fun m hm => ?_) fun c k hcong hk =>
    ha.high_mem hab hcong hk hu
  rw [constant?_eq_some.1 hm] at hu
  cases hu
  rfl

lemma Tight.le_constant (hn : a.interval.constant? = some n) : a.le (constant n) := by
  have hcn := (ha.constant_iff hab n).1 hn
  rw [constant?_eq_some] at hn
  simp [le, hab, constant, Congruence.constant, hn, hcn]

end

lemma le_reduced (ha : a.Tight) (hi : a.isBottom = false → a.interval.le i)
    (hg : a.isBottom = false → a.congruence.le g) (h : reduced i g = .ok r) : a.le r := by
  by_cases hab : a.isBottom = true
  · simp [le, hab]
  rw [Bool.not_eq_true] at hab
  specialize hi hab
  specialize hg hab
  have hae := (isBottom_eq_false.1 hab).1
  obtain ⟨hl, hh⟩ : i.low ≤ a.interval.low ∧ a.interval.high ≤ i.high := by
    rcases Interval.le_iff.1 hi with he | hlh
    · simp [he] at hae
    · exact hlh
  have hie : i.isEmpty = false :=
    isEmpty_eq_false.2 (hl.trans ((isEmpty_eq_false.1 hae).trans hh))
  obtain ⟨ca, ka, hcong⟩ := exists_residue hab
  cases g with
  | bottom => rw [hcong] at hg; simp [Congruence.le] at hg
  | residue c k =>
    by_cases hk : k = 0
    · subst hk
      have hca : a.congruence = .residue c 0 := by
        rw [hcong] at hg ⊢
        obtain ⟨hk0, hc0⟩ := residue_le_residue.1 hg
        rw [zero_dvd_iff.1 hk0, sub_eq_zero.1 (zero_dvd_iff.1 hc0)]
      have hcst := (ha.constant_iff hab c).2 hca
      have hcont : i.contains c = true := by
        rw [constant?_eq_some.1 hcst] at hl hh
        simp [Interval.contains, hie, hl, hh]
      simp only [reduced, hie, hcont] at h
      cases h
      exact ha.le_constant hab hcst
    by_cases hk1 : 1 < k
    · obtain ⟨low, high, hlow, hhigh, rfl⟩ := reduced_stride hie hk1 h
      have hl' : low ≤ a.interval.low :=
        raiseLow_le (by omega) hlow hl (.inr ha.interval.low_fits)
          fun n hn => ha.low_mem_of_le hab hk1 hg hn
      have hh' : a.interval.high ≤ high :=
        le_lowerHigh (by omega) hhigh hh (.inr ha.interval.high_fits)
          fun n hn => ha.high_mem_of_le hab hk1 hg hn
      have hlh := hl'.trans ((isEmpty_eq_false.1 hae).trans hh')
      have hbetween : between low high = ⟨low, high⟩ := by
        refine between_eq hlh (fun he => ?_) (fun he => ?_)
        · exact ha.interval.low_ne hae (posInf_le_iff.1 (he ▸ hl'))
        · exact ha.interval.high_ne hae (le_negInf_iff.1 (he ▸ hh'))
      have hle : a.interval.le ⟨low, high⟩ = true := Interval.le_iff.2 (.inr ⟨hl', hh'⟩)
      rw [hbetween, if_neg (by simp [hlh])]
      split
      next n hn => exact ha.le_constant hab (eq_constant_of_le hae hle hn)
      next => simp [le, hle, hg]
    · rcases reduced_unit hie hk hk1 h with ⟨n, hn, rfl⟩ | ⟨-, rfl⟩
      · exact ha.le_constant hab (eq_constant_of_le hae hi hn)
      · simp [le, hi, hg]

/-! ## Order -/

@[simp] lemma le_self (a : IntVal) : a.le a := by simp [le]

lemma le_iff {b : IntVal} : a.le b ↔
    (a.isBottom = false → a.interval.le b.interval ∧ a.congruence.le b.congruence) := by
  unfold le
  cases a.isBottom <;> simp

lemma isBottom_of_le {b : IntVal} (h : a.le b) (hb : b.isBottom) : a.isBottom := by
  by_contra hab
  obtain ⟨hi, hg⟩ := le_iff.1 h (by simpa using hab)
  simp only [isBottom, Bool.or_eq_true, not_or] at hb hab
  rcases hb with hb | hb
  · exact hab.1 (isEmpty_of_le hi hb)
  · exact hab.2 (Congruence.isBottom_of_le hg hb)

lemma le_trans {b d : IntVal} (hab : a.le b) (hbd : b.le d) : a.le d := by
  rw [le_iff]
  intro ha
  have hb : b.isBottom = false := by
    by_contra hb
    simp [isBottom_of_le hab (by simpa using hb)] at ha
  obtain ⟨hi, hg⟩ := le_iff.1 hab ha
  obtain ⟨hi', hg'⟩ := le_iff.1 hbd hb
  exact ⟨Interval.le_trans hi hi', Congruence.le_trans hg hg'⟩

lemma le_of_isBottom (h : a.isBottom) (b : IntVal) : a.le b := by
  simp [le, h]

section Join

variable {a b r : IntVal}

lemma join_cases (ha : a.WellFormed) (hb : b.WellFormed) (h : a.join b = .ok r) :
    r = a ∨ r = b ∨ r.Tight := by
  unfold join at h
  split at h
  · cases h; exact .inr (.inl rfl)
  · split at h
    · cases h; exact .inl rfl
    · exact .inr (.inr (tight_of_reduced (proper_join ha.interval hb.interval)
        (canonical_join ha.congruence hb.congruence) h))

lemma tight_join (ha : a.Tight) (hb : b.Tight) (h : a.join b = .ok r) : r.Tight := by
  rcases join_cases ha.wellFormed hb.wellFormed h with rfl | rfl | hr
  exacts [ha, hb, hr]

lemma le_join_left (ha : a.Tight) (h : a.join b = .ok r) : a.le r := by
  unfold join at h
  split at h
  next hab => exact le_of_isBottom hab r
  next =>
    split at h
    · cases h; exact le_self a
    · exact le_reduced ha (fun _ => Interval.le_join_left _ _)
        (fun _ => Congruence.le_join_left _ _) h

lemma le_join_right (hb : b.Tight) (h : a.join b = .ok r) : b.le r := by
  unfold join at h
  split at h
  next => cases h; exact le_self b
  next =>
    split at h
    next hbb => exact le_of_isBottom hbb r
    next =>
      exact le_reduced hb (fun _ => Interval.le_join_right _ _)
        (fun _ => Congruence.le_join_right _ _) h

lemma join_comm (ha : a.isBottom = false) (hb : b.isBottom = false) : a.join b = b.join a := by
  unfold join
  rw [Interval.join_comm (isBottom_eq_false.1 ha).1 (isBottom_eq_false.1 hb).1,
    Congruence.join_comm]
  simp [ha, hb]

end Join

lemma tight_meet {b : IntVal} (ha : a.WellFormed) (hb : b.WellFormed) (h : a.meet b = .ok r) :
    r.Tight :=
  tight_of_reduced (proper_meet ha.interval hb.interval)
    (canonical_meet ha.congruence hb.congruence) h

/-! ## Widening -/

lemma le_widen_left (a b : IntVal) : a.le (a.widen b) := by
  unfold widen
  split
  next hab => exact le_of_isBottom hab b
  next =>
    split
    · exact le_self a
    · exact le_iff.2 fun _ => ⟨Interval.le_widen_left _ _, Congruence.le_join_left _ _⟩

lemma le_widen_right (a b : IntVal) : b.le (a.widen b) := by
  unfold widen
  split
  next => exact le_self b
  next =>
    split
    next hbb => exact le_of_isBottom hbb a
    next => exact le_iff.2 fun _ => ⟨Interval.le_widen_right _ _, Congruence.le_join_right _ _⟩

lemma widen_constant? {j : Interval} (hi : i.isEmpty = false) (hj : j.isEmpty = false) :
    (i.widen j).constant? = some n ↔ i.constant? = some n ∧ j.constant? = some n := by
  constructor
  · intro h
    exact ⟨eq_constant_of_le hi (Interval.le_widen_left i j) h,
      eq_constant_of_le hj (Interval.le_widen_right i j) h⟩
  · rintro ⟨h, h'⟩
    rw [constant?_eq_some] at h h' ⊢
    simp [h, h', Interval.widen]

lemma join_eq_constant {c₁ k₁ c₂ k₂ : Int} (hc₁ : (Congruence.residue c₁ k₁).Canonical) :
    (Congruence.residue c₁ k₁).join (.residue c₂ k₂) = .residue n 0 ↔ (k₁ = 0 ∧ c₁ = n) ∧ k₂ = 0 ∧
    c₂ = n := by
  have hzero : Congruence.gcd (Congruence.gcd k₁ k₂) (c₁ - c₂) = 0 ↔ k₁ = 0 ∧ k₂ = 0 ∧ c₁ = c₂ := by
    simp [Congruence.gcd, Int.gcd_eq_zero_iff, sub_eq_zero, and_assoc]
  simp only [Congruence.join]
  rcases ofResidue_cases c₁ (Congruence.gcd (Congruence.gcd k₁ k₂) (c₁ - c₂)) with
    ⟨hg, -, h⟩ | h | ⟨hg, -, -, h⟩ <;> rw [h]
  · obtain ⟨rfl, rfl, rfl⟩ := hzero.1 hg
    simp
  · constructor
    · intro he; simp [Congruence.top] at he
    · rintro ⟨⟨rfl, rfl⟩, rfl, rfl⟩
      simp [Congruence.gcd, ofResidue, hc₁.1, Congruence.top] at h
  · constructor
    · intro he
      injection he with _ hk
      omega
    · rintro ⟨⟨rfl, rfl⟩, rfl, rfl⟩
      simp [Congruence.gcd] at hg

lemma tight_widen {b : IntVal} (ha : a.Tight) (hb : b.Tight) : (a.widen b).Tight := by
  unfold widen
  split
  · exact hb
  split
  · exact ha
  next hab hbb =>
    rw [Bool.not_eq_true] at hab hbb
    obtain ⟨ca, ka, hca⟩ := exists_residue hab
    obtain ⟨cb, kb, hcb⟩ := exists_residue hbb
    have hae := (isBottom_eq_false.1 hab).1
    have hbe := (isBottom_eq_false.1 hbb).1
    have hle : a.congruence.le (a.congruence.widen b.congruence) = true :=
      Congruence.le_join_left _ _
    refine ⟨proper_widen ha.interval hb.interval,
      canonical_join ha.congruence hb.congruence, fun _ n => ?_, ?_, ?_⟩
    · dsimp only
      rw [widen_constant? hae hbe, ha.constant_iff hab, hb.constant_iff hbb, hca, hcb]
      unfold Congruence.widen
      rw [join_eq_constant (hca ▸ ha.congruence)]
      simp [and_comm]
    · intro _ c k l hck hk hl
      dsimp only at hck hl
      rw [hck] at hle
      refine ha.low_mem_of_le hab hk hle ?_
      simp only [Interval.widen, hae, hbe, Bool.false_eq_true, if_false] at hl
      split at hl
      · cases hl
      · exact hl
    · intro _ c k u hck hk hu
      dsimp only at hck hu
      rw [hck] at hle
      refine ha.high_mem_of_le hab hk hle ?_
      simp only [Interval.widen, hae, hbe, Bool.false_eq_true, if_false] at hu
      split at hu
      · cases hu
      · exact hu

/-! ## Narrowing -/

lemma tight_narrow {b : IntVal} (ha : a.Tight) (hb : b.Tight) (h : a.narrow b = .ok r) : r.Tight :=
  tight_of_reduced (proper_narrow ha.interval hb.interval)
    (canonical_narrow ha.congruence hb.congruence) h

lemma le_narrow {b : IntVal} (hb : b.Tight) (hba : b.le a) (h : a.narrow b = .ok r) : b.le r := by
  refine le_reduced hb (fun hbb => ?_) (fun hbb => ?_) h
  · exact Interval.le_narrow (le_iff.1 hba hbb).1
      (hb.interval.low_ne (isBottom_eq_false.1 hbb).1)
      (hb.interval.high_ne (isBottom_eq_false.1 hbb).1)
  · exact Congruence.le_narrow (le_iff.1 hba hbb).2 (Congruence.le_self _)

/-! ## Operations -/

section Operations

variable {a b r : IntVal}

lemma tight_ofInterval (hi : i.Proper) : (ofInterval i).Tight :=
  tight_of_reduced hi canonical_top (reduced_top i)

lemma tight_ofTruth (t : Truth) : (ofTruth t).Tight := by
  cases t with
  | true => exact tight_constant (by decide)
  | false => exact tight_constant (by decide)
  | unknown =>
    have zero : (Bound.finite 0).Fits := (by decide : Word.fits 0 = true)
    have one : (Bound.finite 1).Fits := (by decide : Word.fits 1 = true)
    exact tight_ofInterval (proper_between zero one)

lemma tight_neg (h : a.neg = .ok r) : r.Tight :=
  tight_of_reduced (proper_neg _) (canonical_neg _) h

lemma tight_add (h : a.add b = .ok r) : r.Tight :=
  tight_of_reduced (proper_add _ _) (canonical_add _ _) h

lemma tight_sub (h : a.sub b = .ok r) : r.Tight :=
  tight_of_reduced (proper_sub _ _) (canonical_sub _ _) h

lemma tight_mul (h : a.mul b = .ok r) : r.Tight :=
  tight_of_reduced (proper_mul _ _) (canonical_mul _ _) h

lemma tight_div (h : a.div b = .ok r) : r.Tight :=
  tight_of_reduced (proper_div _ _) (canonical_div _ _) h

lemma tight_rem (ha : a.WellFormed) (hb : b.WellFormed) (h : a.rem b = .ok r) : r.Tight :=
  tight_of_reduced (proper_rem ha.interval hb.interval) (canonical_rem _ _) h

lemma WellFormed.fits_constant? (ha : a.WellFormed) (hab : a.isBottom = false)
    (h : a.constant? = some n) : Word.fits n := by
  unfold constant? at h
  cases hi : a.interval.constant? with
  | some m =>
    rw [hi] at h
    cases h
    exact fits_of_constant? ha.interval hi
  | none =>
    rw [hi] at h
    obtain ⟨c, k, hc⟩ := exists_residue hab
    have hcan := ha.congruence
    rw [hc] at h hcan
    change (if k = 0 then some c else none) = some n at h
    split at h
    · cases h
      exact hcan.1
    · cases h

lemma restrict_cases {d : DomainSet} (h : a.restrict d = .ok r) : a.isBottom = true ∧ r = bottom ∨
    a.isBottom = false ∧ (∃ n, a.constant? = some n ∧ r = constant n) ∨
    a.isBottom = false ∧ reduced (if d.interval then a.interval else .top)
      (if d.congruence then a.congruence else .top) = .ok r := by
  unfold restrict at h
  split at h
  next hab => exact .inl ⟨hab, (Except.ok.inj h).symm⟩
  next hab =>
    rw [Bool.not_eq_true] at hab
    extract_lets rest at h
    split at h
    next n hn =>
      split at h
      · exact .inr (.inl ⟨hab, n, hn, (Except.ok.inj h).symm⟩)
      · exact .inr (.inr ⟨hab, h⟩)
    next => exact .inr (.inr ⟨hab, h⟩)

lemma tight_restrict {d : DomainSet} (ha : a.WellFormed) (h : a.restrict d = .ok r) : r.Tight := by
  rcases restrict_cases h with ⟨-, rfl⟩ | ⟨hab, n, hn, rfl⟩ | ⟨-, h⟩
  · exact tight_bottom
  · exact tight_constant (ha.fits_constant? hab hn)
  · refine tight_of_reduced ?_ ?_ h
    · split
      exacts [ha.interval, proper_top]
    · split
      exacts [ha.congruence, canonical_top]

/-- The integers that may be below a value of `b`. -/
def below (b : IntVal) : Interval :=
  match b.interval.high with
  | .finite h => .atMost (Word.satSub h 1)
  | .posInf => .top
  | .negInf => .bottom

/-- The integers that may be above a value of `b`. -/
def above (b : IntVal) : Interval :=
  match b.interval.low with
  | .finite l => .atLeast (Word.satAdd l 1)
  | .negInf => .top
  | .posInf => .bottom

lemma proper_below (b : IntVal) : b.below.Proper := by
  unfold below
  split
  exacts [proper_atMost (fits_clamp _), proper_top, proper_bottom]

lemma proper_above (b : IntVal) : b.above.Proper := by
  unfold above
  split
  exacts [proper_atLeast (fits_clamp _), proper_top, proper_bottom]

section

variable (ha : a.WellFormed)
include ha

lemma tight_restrictLt (h : a.restrictLt b = .ok r) : r.Tight :=
  tight_meet ha (tight_ofInterval (proper_below b)).wellFormed h

lemma tight_restrictGt (h : a.restrictGt b = .ok r) : r.Tight :=
  tight_meet ha (tight_ofInterval (proper_above b)).wellFormed h

lemma tight_restrictLe (hb : b.WellFormed) (h : a.restrictLe b = .ok r) : r.Tight :=
  tight_meet ha
    (tight_ofInterval (proper_between fits_negInf hb.interval.high_fits)).wellFormed h

lemma tight_restrictGe (hb : b.WellFormed) (h : a.restrictGe b = .ok r) : r.Tight :=
  tight_meet ha
    (tight_ofInterval (proper_between hb.interval.low_fits fits_posInf)).wellFormed h

end

lemma proper_trimEnds (n : Int) (hi : i.Proper) : (trimEnds n i).Proper := by
  have hlow : (if i.low = .finite n then between (.finite (satAdd n 1)) i.high
      else i).Proper := by
    split
    exacts [proper_between (fits_finite.2 (fits_clamp _)) hi.high_fits, hi]
  unfold trimEnds
  dsimp only
  generalize (if i.low = .finite n then between (.finite (satAdd n 1)) i.high
    else i) = j at hlow ⊢
  split
  exacts [proper_between hlow.low_fits (fits_finite.2 (fits_clamp _)), hlow]

lemma restrictNe_cases (ha : a.WellFormed) (h : a.restrictNe b = .ok r) : r = a ∨ r.Tight := by
  unfold restrictNe at h
  split at h
  · cases h
    exact .inl rfl
  · exact .inr (tight_of_reduced (proper_trimEnds _ ha.interval) ha.congruence h)

end Operations

end IntVal
end StaticAnalysis
