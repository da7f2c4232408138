import StaticAnalysis.Proofs.Numeric.Comparisons

/-!
# Laws of congruence classes

Canonical classes are ordered by inclusion, and every join is an upper bound.  Joins and meets are
computed on integers of any size, but a class whose modulus is not a word is replaced by the class
of all integers.  For a join that happens to two single integers that lie too far apart, and then
joins are not associative.  For a meet it happens where the least common multiple of the moduli is
too large, and then the meet is larger than both classes.

`lattice_laws` states all laws with these two conditions, and `far_constants_break_laws` shows that
neither can be left out.
-/

namespace StaticAnalysis

open Int
namespace Congruence

variable {a b d : Congruence}

/-! ## Joins -/

lemma dvd_gcd_iff {x k₁ k₂ c : Int} : x ∣ gcd (gcd k₁ k₂) c ↔ x ∣ k₁ ∧ x ∣ k₂ ∧ x ∣ c := by
  unfold gcd
  rw [ofNat_eq_natCast, ofNat_eq_natCast, dvd_coe_gcd_iff, dvd_coe_gcd_iff, and_assoc]

lemma eq_of_dvd_iff {x y : Int} (hx : 0 ≤ x) (hy : 0 ≤ y) (h : ∀ z, z ∣ x ↔ z ∣ y) : x = y :=
  Int.dvd_antisymm hx hy ((h x).1 dvd_rfl) ((h y).2 dvd_rfl)

lemma gcd_nonneg (x y : Int) : 0 ≤ gcd x y := natCast_nonneg _

/-- The modulus of a join is a word.  It is too large only for two single integers that are further
apart than the greatest word. -/
def GcdFits : Congruence → Congruence → Prop
  | .residue c₁ k₁, .residue c₂ k₂ => Word.fits (gcd (gcd k₁ k₂) (c₁ - c₂)) = true
  | _, _ => True

lemma join_self (ha : a.Canonical) : a.join a = a := by
  cases a with
  | bottom => rfl
  | residue c k =>
    have hk : 0 ≤ k := ha.2.2.1
    have hgcd : gcd (gcd k k) (c - c) = k :=
      eq_of_dvd_iff (gcd_nonneg _ _) hk fun x => by simp [dvd_gcd_iff]
    simp only [join]
    rw [hgcd, ofResidue_of_canonical ha]

lemma join_bottom (a : Congruence) : a.join .bottom = a := by cases a <;> rfl

lemma exists_join_eq {c₁ k₁ c₂ k₂ : Int} (ha : (residue c₁ k₁).Canonical)
    (hfits : (residue c₁ k₁).GcdFits (.residue c₂ k₂)) :
    ∃ c, (residue c₁ k₁).join (.residue c₂ k₂) = .residue c (gcd (gcd k₁ k₂) (c₁ - c₂)) ∧
      gcd (gcd k₁ k₂) (c₁ - c₂) ∣ c - c₁ :=
  exists_ofResidue_eq (gcd_nonneg _ _) hfits fun _ => ha.1

/-- Joins of three classes have the divisors common to all moduli and all distances as the divisors
of their modulus, in whichever order they are taken. -/
lemma join_assoc (ha : a.Canonical) (hb : b.Canonical) (hab : a.GcdFits b) (hbd : b.GcdFits d) :
    (a.join b).join d = a.join (b.join d) := by
  cases a with
  | bottom => rfl
  | residue c₁ k₁ =>
    cases b with
    | bottom => rfl
    | residue c₂ k₂ =>
      cases d with
      | bottom => rw [join_bottom, join_bottom]
      | residue c₃ k₃ =>
        obtain ⟨x, hx, hx₁⟩ := exists_join_eq ha hab
        obtain ⟨y, hy, hy₂⟩ := exists_join_eq hb hbd
        rw [hx, hy]
        generalize hg : gcd (gcd k₁ k₂) (c₁ - c₂) = g at hx₁
        generalize hg' : gcd (gcd k₂ k₃) (c₂ - c₃) = g' at hy₂
        have hmodulus : gcd (gcd g k₃) (x - c₃) = gcd (gcd k₁ g') (c₁ - y) := by
          refine eq_of_dvd_iff (gcd_nonneg _ _) (gcd_nonneg _ _) fun z => ?_
          have hleft : z ∣ gcd (gcd g k₃) (x - c₃) ↔ z ∣ g ∧ z ∣ k₃ ∧ z ∣ c₂ - c₃ := by
            rw [dvd_gcd_iff]
            refine and_congr_right fun hz => and_congr_right fun _ => ?_
            rw [show x - c₃ = x - c₁ + (c₁ - c₂) + (c₂ - c₃) by ring]
            exact dvd_add_right (dvd_add (hz.trans hx₁) (dvd_gcd_iff.1 (hg ▸ hz)).2.2)
          have hright : z ∣ gcd (gcd k₁ g') (c₁ - y) ↔ z ∣ k₁ ∧ z ∣ g' ∧ z ∣ c₁ - c₂ := by
            rw [dvd_gcd_iff]
            refine and_congr_right fun _ => and_congr_right fun hz => ?_
            rw [← sub_sub_sub_cancel_right c₁ y c₂]
            exact dvd_sub_left (hz.trans hy₂)
          rw [hleft, hright, ← hg, ← hg', dvd_gcd_iff, dvd_gcd_iff]
          tauto
        simp only [join]
        rw [hmodulus]
        refine ofResidue_congr (Int.dvd_trans ?_ hx₁)
        rw [← hmodulus]
        exact (dvd_gcd_iff.1 dvd_rfl).1

lemma join_eq_top (hfits : ¬ a.GcdFits b) : a.join b = top := by
  cases a with
  | bottom => exact absurd trivial hfits
  | residue c₁ k₁ =>
    cases b with
    | bottom => exact absurd trivial hfits
    | residue c₂ k₂ =>
      have hword : Word.fits (gcd (gcd k₁ k₂) (c₁ - c₂)) = false := by simpa [GcdFits] using hfits
      exact ofResidue_eq_top (gcd_nonneg _ _) hword

lemma top_join (a : Congruence) : top.join a = top := by
  cases a with
  | bottom => rfl
  | residue c k =>
    have hgcd : gcd (gcd 1 k) (0 - c) = 1 :=
      eq_of_dvd_iff (gcd_nonneg _ _) one_pos.le fun x => by
        rw [dvd_gcd_iff]
        exact ⟨And.left, fun h => ⟨h, h.trans (one_dvd _), h.trans (one_dvd _)⟩⟩
    simp only [top, join]
    rw [hgcd]
    rfl

/-! ## Meets -/

lemma meet_comm (ha : a.Canonical) (hb : b.Canonical) : a.meet b = b.meet a := by
  rcases meet_cases ha hb with ⟨hnone, h⟩ | ⟨x, hxa, hxb, h⟩ <;>
    rcases meet_cases hb ha with ⟨hnone', h'⟩ | ⟨y, hyb, hya, h'⟩
  · rw [h, h']
  · exact absurd hyb (hnone y hya)
  · exact absurd hxa (hnone' x hxb)
  · rw [h, h', Int.lcm_comm b.modulus]
    exact ofResidue_congr (lcm_dvd_of_contains hya hyb hxa hxb)

lemma le_of_contains (h : ∀ n, a.contains n → b.contains n) : a.le b := by
  cases a with
  | bottom => rfl
  | residue c₁ k₁ =>
    have hfirst := h c₁ (residue_contains.2 (by simp))
    have hsecond := h (c₁ + k₁) (residue_contains.2 (by simp))
    cases b with
    | bottom => cases hfirst
    | residue c₂ k₂ =>
      rw [residue_contains] at hfirst hsecond
      refine residue_le_residue.2 ⟨?_, hfirst⟩
      rw [show k₁ = (c₁ + k₁ - c₂) - (c₁ - c₂) by ring]
      exact dvd_sub hsecond hfirst

section

variable (ha : a.Canonical) (hb : b.Canonical)
include ha hb

lemma meet_le (hfits : a.LcmFits b) : (a.meet b).le a ∧ (a.meet b).le b :=
  ⟨le_of_contains fun _ hn => (contains_of_meet ha hb hfits hn).1,
    le_of_contains fun _ hn => (contains_of_meet ha hb hfits hn).2⟩

lemma not_top_le (hfits : ¬ a.LcmFits b) : top.le a = false := by
  cases a with
  | bottom => rfl
  | residue c₁ k₁ =>
    cases b with
    | bottom => exact absurd trivial hfits
    | residue c₂ k₂ =>
      rw [← Bool.not_eq_true]
      intro htop
      have hone := eq_one_of_dvd_one ha.2.2.1 (residue_le_residue.1 htop).1
      refine hfits (?_ : Word.fits (Int.lcm k₁ k₂) = true)
      rw [hone, Int.lcm_one_left, natCast_natAbs, abs_of_nonneg hb.2.2.1]
      exact hb.2.1

lemma meet_le_iff : (a.meet b).le a ∧ (a.meet b).le b ↔ a.meet b = .bottom ∨ a.LcmFits b := by
  constructor
  · rintro ⟨hle, -⟩
    by_contra hnot
    obtain ⟨hne, hfits⟩ := not_or.1 hnot
    rw [meet_eq_top ha hb hfits hne, not_top_le ha hb hfits] at hle
    cases hle
  · rintro (hbottom | hfits)
    · rw [hbottom]
      exact ⟨rfl, rfl⟩
    · exact meet_le ha hb hfits

end

/-! ## All laws -/

lemma equiv_of_eq (h : a = b) : Domain.equiv a b = .ok true := by
  subst h
  simp [Domain.equiv, Domain.le]

/-- The laws of canonical classes.  Joins are associative if the moduli of the inner joins are
words, and otherwise the side with the lost modulus is the class of all integers.  A meet is below
both classes exactly if it is empty or the least common multiple of the moduli is a word. -/
theorem lattice_laws (ha : a.Canonical) (hb : b.Canonical) :
    a.le a = true ∧
    (a.le b = true → b.le d = true → a.le d = true) ∧
    (a.le (a.join b) = true ∧ b.le (a.join b) = true) ∧
    Domain.equiv (a.join b) (b.join a) = .ok true ∧
    Domain.equiv (a.join a) a = .ok true ∧
    (a.GcdFits b → b.GcdFits d → Domain.equiv ((a.join b).join d) (a.join (b.join d)) = .ok true) ∧
    (¬ a.GcdFits b → (a.join b).join d = top) ∧
    (¬ b.GcdFits d → a.join (b.join d) = top) ∧
    ((a.meet b).le a = true ∧ (a.meet b).le b = true ↔ a.meet b = .bottom ∨ a.LcmFits b) ∧
    Domain.equiv (a.meet b) (b.meet a) = .ok true ∧
    (Domain.equiv (a.join bottom) a = .ok true ∧ Domain.equiv (bottom.join a) a = .ok true) ∧
    (Domain.equiv (a.meet top) a = .ok true ∧ Domain.equiv (top.meet a) a = .ok true) ∧
    a.le (a.widen b) = true := by
  refine ⟨le_self a, le_trans, ⟨le_join_left a b, le_join_right a b⟩, equiv_of_eq (join_comm a b),
    equiv_of_eq (join_self ha), fun hab hbd => equiv_of_eq (join_assoc ha hb hab hbd),
    fun hab => ?_,
    fun hbd => ?_, meet_le_iff ha hb, equiv_of_eq (meet_comm ha hb),
    ⟨equiv_of_eq (join_bottom a), equiv_of_eq rfl⟩, ⟨equiv_of_eq (meet_top ha), ?_⟩,
      le_join_left a b⟩
  · rw [join_eq_top hab, top_join]
  · rw [join_eq_top hbd, join_comm, top_join]
  · rw [meet_comm canonical_top ha]
    exact equiv_of_eq (meet_top ha)

/-- Strides four and six and a single integer: the join of all three is the class of all integers,
and the meet of the first two has stride twelve. -/
theorem lattice_laws_four_six :
    Domain.equiv (((residue 2 4).join (.residue 0 6)).join (constant 7))
      ((residue 2 4).join ((residue 0 6).join (constant 7))) = .ok true ∧
    ((residue 2 4).meet (.residue 0 6)).le (.residue 2 4) = true ∧
    ((residue 2 4).meet (.residue 0 6)).le (.residue 0 6) = true := by
  obtain ⟨-, -, -, -, -, hassoc, -, -, hmeet, -⟩ := lattice_laws (a := .residue 2 4)
    (b := .residue 0 6) (d := constant 7) ⟨by decide, by decide, by decide, by decide⟩
    ⟨by decide, by decide, by decide, by decide⟩
  have hfits : (residue 2 4).LcmFits (.residue 0 6) := (by decide : Word.fits (Int.lcm 4 6) = true)
  exact ⟨hassoc (by decide : Word.fits (gcd (gcd 4 6) (2 - 0)) = true)
    (by decide : Word.fits (gcd (gcd 6 0) (0 - 7)) = true), hmeet.2 (.inr hfits)⟩

/-- Two single integers whose distance is one more than the greatest word, with zero between them,
are not joined associatively.  The multiples of half that distance and those of three have a
computed meet that is below neither. -/
theorem far_constants_break_laws :
    ((constant (-0x4000000000000000)).Canonical ∧ (constant 0x4000000000000000).Canonical ∧
      (constant 0).Canonical ∧
      Domain.equiv
        (((constant (-0x4000000000000000)).join (constant 0x4000000000000000)).join (constant 0))
        ((constant (-0x4000000000000000)).join ((constant 0x4000000000000000).join (constant 0))) =
          .ok false) ∧
    (residue 0 0x4000000000000000).Canonical ∧ (residue 0 3).Canonical ∧
      ((residue 0 0x4000000000000000).meet (.residue 0 3)).le
      (.residue 0 0x4000000000000000) = false ∧
      ((residue 0 0x4000000000000000).meet (.residue 0 3)).le (.residue 0 3) = false :=
  ⟨⟨canonical_constant (by decide), canonical_constant (by decide), canonical_constant (by decide),
    by decide⟩, ⟨by decide, by decide, by decide, by decide⟩,
    ⟨by decide, by decide, by decide, by decide⟩, by decide +kernel, by decide +kernel⟩

end Congruence
end StaticAnalysis
