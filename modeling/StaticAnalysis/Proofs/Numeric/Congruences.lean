import Mathlib.Algebra.Order.Ring.Abs
import Mathlib.Algebra.Order.Ring.Int
import Mathlib.Algebra.Ring.Divisibility.Basic
import StaticAnalysis.Numeric.Congruence
import StaticAnalysis.Proofs.Numeric.Bounds

/-!
# Order of congruence classes

The class `c + kℤ` is contained in `c' + k'ℤ` exactly when `k'` divides `k` and `c - c'`; with
divisibility by zero read as equality this covers single integers too, and every law of the order is
a fact about divisors.

Every operation produces a *canonical* class: constant and modulus are words, the modulus is not
negative, and the constant is a remainder by a positive modulus.
-/

namespace StaticAnalysis

open Int
namespace Congruence

/-! ## Inclusion and membership as divisibility -/

variable {c₁ k₁ c k n : Int} {a b d : Congruence}

lemma residue_le_residue {c₂ k₂ : Int} :
    (residue c₁ k₁).le (residue c₂ k₂) ↔ k₂ ∣ k₁ ∧ k₂ ∣ c₁ - c₂ := by
  simp only [le]
  split
  next hk =>
    subst hk
    simp [sub_eq_zero]
  next => simp [dvd_iff_tmod_eq_zero]

lemma residue_contains : (residue c k).contains n ↔ k ∣ n - c := by
  simp only [contains]
  split
  next hk =>
    subst hk
    rw [beq_iff_eq, zero_dvd_iff, sub_eq_zero, eq_comm]
  next => rw [beq_iff_eq, dvd_iff_emod_eq_zero]

lemma isBottom_iff : a.isBottom ↔ a = .bottom := by
  cases a <;> simp [isBottom]

@[simp] lemma le_self (a : Congruence) : a.le a := by
  cases a with
  | bottom => rfl
  | residue c k => simp [residue_le_residue]

lemma le_trans (hab : a.le b) (hbd : b.le d) : a.le d := by
  match a, b, d with
  | .bottom, _, _ => rfl
  | .residue _ _, .bottom, _ => simp [le] at hab
  | .residue _ _, .residue _ _, .bottom => simp [le] at hbd
  | .residue c₁ k₁, .residue c₂ k₂, .residue c₃ k₃ =>
    rw [residue_le_residue] at hab hbd ⊢
    refine ⟨hbd.1.trans hab.1, ?_⟩
    have := dvd_add (hbd.1.trans hab.2) hbd.2
    rwa [sub_add_sub_cancel] at this

@[simp] lemma le_top (a : Congruence) : a.le top := by
  cases a with
  | bottom => rfl
  | residue c k => simp [top, residue_le_residue]

lemma isBottom_of_le (h : a.le b) (hb : b.isBottom) : a.isBottom := by
  cases a <;> cases b <;> simp_all [isBottom, le]

/-- The modulus of a class, and zero for the empty set. -/
def modulus : Congruence → Int
  | .bottom => 0
  | .residue _ k => k

/-! ## Canonical classes -/

/-- Constant and modulus are words, and the constant is a remainder by a positive modulus. -/
def Canonical : Congruence → Prop
  | .bottom => True
  | .residue c k => Word.fits c = true ∧ Word.fits k = true ∧ 0 ≤ k ∧ (0 < k → 0 ≤ c ∧ c < k)

lemma canonical_top : top.Canonical := ⟨by decide, by decide, by decide, by simp⟩

lemma canonical_constant (h : Word.fits c) : (constant c).Canonical :=
  ⟨h, by decide, by decide, by simp⟩

lemma ofResidue_cases (c k : Int) :
    (k = 0 ∧ Word.fits c ∧ ofResidue c k = .residue c 0) ∨
    ofResidue c k = top ∨
    (1 < |k| ∧ Word.fits (c % |k|) ∧ Word.fits |k| ∧
      ofResidue c k = .residue (c % |k|) |k|) := by
  have habs : Int.ofNat k.natAbs = |k| := natCast_natAbs k
  unfold ofResidue
  rw [habs]
  dsimp only
  split
  next hk =>
    split
    next hc => exact .inl ⟨abs_eq_zero.1 hk, hc, rfl⟩
    next => exact .inr (.inl rfl)
  next hk =>
    split
    next => exact .inr (.inl rfl)
    next hk' =>
      split
      next hfit =>
        rw [Bool.and_eq_true] at hfit
        have := abs_nonneg k
        exact .inr (.inr ⟨by omega, hfit.1, hfit.2, rfl⟩)
      next => exact .inr (.inl rfl)

lemma ofResidue_zero (h : Word.fits c) : ofResidue c 0 = .residue c 0 := by
  simp [ofResidue, h]

lemma canonical_ofResidue (c k : Int) : (ofResidue c k).Canonical := by
  rcases ofResidue_cases c k with ⟨-, hc, h⟩ | h | ⟨hk, hc, hkf, h⟩ <;> rw [h]
  · exact canonical_constant hc
  · exact canonical_top
  · exact ⟨hc, hkf, by omega, fun hpos => ⟨emod_nonneg _ (by omega), emod_lt_of_pos _ hpos⟩⟩

lemma le_ofResidue (hk : k ∣ k₁) (hc : k ∣ c₁ - c) : (residue c₁ k₁).le (ofResidue c k) := by
  rcases ofResidue_cases c k with ⟨rfl, -, h⟩ | h | ⟨-, -, -, h⟩ <;> rw [h]
  · exact residue_le_residue.2 ⟨hk, hc⟩
  · exact le_top _
  · refine residue_le_residue.2 ⟨(abs_dvd k k₁).2 hk, ?_⟩
    have hmod : |k| ∣ c - c % |k| := dvd_self_sub_emod
    have := dvd_add ((abs_dvd k _).2 hc) hmod
    rwa [sub_add_sub_cancel] at this

lemma ofResidue_contains (h : k ∣ n - c) : (ofResidue c k).contains n := by
  have hle : (residue n 0).le (ofResidue c k) = true := le_ofResidue (dvd_zero k) h
  cases hr : ofResidue c k with
  | bottom => rw [hr] at hle; simp [le] at hle
  | residue c' k' =>
    rw [hr, residue_le_residue] at hle
    exact residue_contains.2 hle.2

lemma ofResidue_congr {c' : Int} (h : k ∣ c - c') : ofResidue c k = ofResidue c' k := by
  unfold ofResidue
  dsimp only
  have h' : Int.ofNat k.natAbs ∣ c - c' := natAbs_dvd.2 h
  generalize Int.ofNat k.natAbs = k at h'
  by_cases hk : k = 0
  · subst hk
    rw [show c = c' by have := Int.zero_dvd.1 h'; omega]
  · rw [if_neg hk, if_neg hk, emod_eq_emod_iff_emod_sub_eq_zero.2 (emod_eq_zero_of_dvd h')]

lemma canonical_neg (a : Congruence) : a.neg.Canonical := by
  cases a with
  | bottom => trivial
  | residue c k => exact canonical_ofResidue _ _

section

variable (a b : Congruence)

lemma canonical_add : (a.add b).Canonical := by
  cases a <;> cases b <;> first | trivial | exact canonical_ofResidue _ _

lemma canonical_sub : (a.sub b).Canonical := canonical_add _ _

lemma canonical_mul : (a.mul b).Canonical := by
  cases a <;> cases b <;> first | trivial | exact canonical_ofResidue _ _

lemma canonical_div : (a.div b).Canonical := by
  cases a with
  | bottom => trivial
  | residue c k =>
    simp only [div]
    split
    · exact canonical_top
    · split_ifs
      exacts [trivial, canonical_ofResidue _ _, canonical_ofResidue _ _, canonical_top]

lemma canonical_rem : (a.rem b).Canonical := by
  cases a with
  | bottom => trivial
  | residue c k =>
    simp only [rem]
    split
    · exact canonical_top
    · split_ifs
      exacts [trivial, canonical_ofResidue _ _, canonical_constant (by decide),
        canonical_ofResidue _ _, canonical_top]

end

lemma canonical_remPreimage (r m : Int) : (remPreimage r m).Canonical := by
  unfold remPreimage
  split
  · trivial
  · exact canonical_ofResidue _ _

section

variable (ha : a.Canonical) (hb : b.Canonical)
include ha hb

lemma canonical_join : (a.join b).Canonical := by
  cases a <;> cases b <;> first | exact canonical_ofResidue _ _ | assumption

lemma canonical_meet : (a.meet b).Canonical := by
  match a, b with
  | .bottom, _ => trivial
  | .residue _ _, .bottom => trivial
  | .residue c₁ k₁, .residue c₂ k₂ =>
    simp only [meet]
    split_ifs
    · exact ha
    · trivial
    · exact hb
    · trivial
    · unfold meetResidues
      dsimp only
      split_ifs
      · trivial
      · exact canonical_ofResidue _ _

lemma canonical_narrow : (a.narrow b).Canonical := by
  unfold narrow
  split
  exacts [hb, ha]

end

/-! ## Joins -/

lemma gcd_dvd_join (c₁ k₁ c₂ k₂ : Int) :
    gcd (gcd k₁ k₂) (c₁ - c₂) ∣ k₁ ∧ gcd (gcd k₁ k₂) (c₁ - c₂) ∣ k₂ ∧
      gcd (gcd k₁ k₂) (c₁ - c₂) ∣ c₁ - c₂ := by
  have hg : gcd (gcd k₁ k₂) (c₁ - c₂) ∣ gcd k₁ k₂ := Int.gcd_dvd_left _ _
  exact ⟨hg.trans (Int.gcd_dvd_left _ _), hg.trans (Int.gcd_dvd_right _ _), Int.gcd_dvd_right _ _⟩

lemma le_join_left (a b : Congruence) : a.le (a.join b) := by
  match a, b with
  | .bottom, _ => rfl
  | .residue _ _, .bottom => exact le_self _
  | .residue c₁ k₁, .residue c₂ k₂ =>
    exact le_ofResidue (gcd_dvd_join c₁ k₁ c₂ k₂).1 (by simp)

lemma le_join_right (a b : Congruence) : b.le (a.join b) := by
  match a, b with
  | .bottom, _ => exact le_self _
  | .residue _ _, .bottom => rfl
  | .residue c₁ k₁, .residue c₂ k₂ =>
    obtain ⟨-, hk, hc⟩ := gcd_dvd_join c₁ k₁ c₂ k₂
    exact le_ofResidue hk ((dvd_sub_comm).1 hc)

lemma le_narrow (ha : d.le a) (hb : d.le b) : d.le (a.narrow b) := by
  unfold narrow
  split
  exacts [hb, ha]

lemma gcd_join_comm (c₁ k₁ c₂ k₂ : Int) :
    gcd (gcd k₁ k₂) (c₁ - c₂) = gcd (gcd k₂ k₁) (c₂ - c₁) := by
  simp only [gcd]
  rw [Int.gcd_comm k₁ k₂, ← Int.neg_sub c₂ c₁, Int.gcd_neg]

lemma join_comm (a b : Congruence) : a.join b = b.join a := by
  cases a with
  | bottom => cases b <;> rfl
  | residue c₁ k₁ =>
    cases b with
    | bottom => rfl
    | residue c₂ k₂ =>
      simp only [join]
      rw [gcd_join_comm]
      obtain ⟨-, -, hdvd⟩ := gcd_dvd_join c₂ k₂ c₁ k₁
      exact ofResidue_congr (dvd_sub_comm.1 hdvd)

end Congruence
end StaticAnalysis
