import StaticAnalysis.Proofs.Memory.Values
import StaticAnalysis.Proofs.Numeric.CongruenceLaws
import StaticAnalysis.Proofs.Numeric.Overflow

/-!
# Meets of values

A value that is below two values of one kind is below their meet.  The order also puts the integer
zero below every address that may be null, and there the meet of an integer and an address is empty,
so zero is below both and not below their meet.  `le_meet_iff` says that this is the only exception,
and when the meet of two integers has a result at all.
-/

namespace StaticAnalysis

open SortedSet StaticAnalysis.Interval

namespace Interval

lemma le_meet {i j k : Interval} (hi : k.le i) (hj : k.le j) (hk : k.Proper) : k.le (i.meet j) := by
  rcases le_iff.1 hi with hempty | ⟨hil, hih⟩
  · exact le_iff.2 (.inl hempty)
  rcases le_iff.1 hj with hempty | ⟨hjl, hjh⟩
  · exact le_iff.2 (.inl hempty)
  by_cases hempty : k.isEmpty = true
  · exact le_iff.2 (.inl hempty)
  rw [Bool.not_eq_true] at hempty
  have hl : max i.low j.low ≤ k.low := max_le hil hjl
  have hh : k.high ≤ min i.high j.high := le_min hih hjh
  unfold meet
  rw [between_eq (hl.trans ((isEmpty_eq_false.1 hempty).trans hh))]
  · exact le_iff.2 (.inr ⟨hl, hh⟩)
  · exact fun he => hk.low_ne hempty (Bound.posInf_le_iff.1 (he ▸ hl))
  · exact fun he => hk.high_ne hempty (Bound.le_negInf_iff.1 (he ▸ hh))

end Interval

lemma Congruence.le_meet {a b d : Congruence} (ha : a.Canonical) (hb : b.Canonical)
    (hda : d.le a) (hdb : d.le b) : d.le (a.meet b) :=
  le_of_contains fun _ hn => contains_meet ha hb (contains_of_le hda hn) (contains_of_le hdb hn)

namespace IntVal

variable {a b d r : IntVal}

lemma le_meet (ha : a.WellFormed) (hb : b.WellFormed) (hd : d.Tight) (hda : d.le a)
    (hdb : d.le b) (h : a.meet b = .ok r) : d.le r := by
  refine le_reduced hd (fun hne => ?_) (fun hne => ?_) h
  · exact Interval.le_meet (le_iff.1 hda hne).1 (le_iff.1 hdb hne).1 hd.interval
  · exact Congruence.le_meet ha.congruence hb.congruence (le_iff.1 hda hne).2 (le_iff.1 hdb hne).2

lemma exists_meet_iff (ha : a.WellFormed) (hb : b.WellFormed) :
    (∃ r, a.meet b = .ok r) ↔
      ¬ NearLeast (a.interval.meet b.interval) (a.congruence.meet b.congruence) := by
  unfold meet
  rw [exists_reduced_iff, roundable_iff (proper_meet ha.interval hb.interval)
    (Congruence.canonical_meet ha.congruence hb.congruence)]

end IntVal

namespace AddrSet

variable {a b d : AddrSet}

lemma le_meet (hda : d.le a) (hdb : d.le b) : d.le (a.meet b) := by
  rcases le_cases hda with rfl | ⟨u, s, rfl, rfl, hs⟩
  · exact hdb
  rcases le_cases hdb with rfl | ⟨_, t, hu, rfl, ht⟩
  · exact hda
  · cases hu
    exact subset_iff.2 fun x hx => mem_inter.2 ⟨hs x hx, ht x hx⟩

lemma null_le_iff : null.le a ↔ a.mayBeNull := by
  constructor
  · exact fun h => mayBeNull_of_le h mayBeNull_null
  · intro h
    cases a with
    | any => rfl
    | of s =>
      refine subset_iff.2 fun x hx => ?_
      rw [mem_singleton.1 hx]
      exact SortedSet.contains_iff.1 h

end AddrSet

namespace Value

variable {v w u x : Value}

/-- One value is an integer and the other an address. -/
def crossed : Value → Value → Bool
  | .int _, .addr _ => true
  | .addr _, .int _ => true
  | _, _ => false

lemma crossed_comm (v w : Value) : v.crossed w = w.crossed v := by cases v <;> cases w <;> rfl

lemma meet_of_crossed (h : v.crossed w) : v.meet w = .ok .bottom := by
  cases v <;> cases w <;> first | rfl | cases h

lemma below_meet (hv : v.Scalar) (hw : w.Scalar) (hu : u.Scalar) (hcross : v.crossed w = false)
    (huv : Below u v) (huw : Below u w) (h : v.meet w = .ok x) : Below u x := by
  unfold meet at h
  rw [depth_eq hv, depth_eq hw] at h
  cases huv with
  | void hvoid => exact .void hvoid
  | top =>
    cases h
    exact huw
  | array => exact absurd hv id
  | int huv =>
    cases huw with
    | void hvoid => exact .void hvoid
    | top =>
      cases h
      exact .int huv
    | null => cases hcross
    | int huw =>
      obtain ⟨r, hr, h⟩ := Fault.bind_eq_ok.1 h
      cases h
      exact .int (IntVal.le_meet hv.wellFormed hw.wellFormed hu huv huw hr)
  | addr huv =>
    cases huw with
    | void hvoid => exact .void hvoid
    | top =>
      cases h
      exact .addr huv
    | addr huw =>
      cases h
      exact .addr (AddrSet.le_meet huv huw)
  | null hi huv =>
    cases huw with
    | void hvoid => exact .void hvoid
    | top =>
      cases h
      exact .null hi huv
    | int => cases hcross
    | null _ huw =>
      cases h
      rw [← AddrSet.null_le_iff] at huv huw
      exact .null hi (AddrSet.null_le_iff.1 (AddrSet.le_meet huv huw))

lemma exists_meet_iff (hv : v.Scalar) (hw : w.Scalar) : (∃ x, v.meet w = .ok x) ↔
    ∀ a b, v = .int a → w = .int b →
      ¬ IntVal.NearLeast (a.interval.meet b.interval) (a.congruence.meet b.congruence) := by
  cases v with
  | array a => exact absurd hv id
  | int a =>
    cases w with
    | array b => exact absurd hw id
    | int b =>
      rw [scalar_int] at hv hw
      have hmeet := IntVal.exists_meet_iff hv.wellFormed hw.wellFormed
      constructor
      · rintro ⟨x, hx⟩ a' b' hva hwb
        cases hva
        cases hwb
        obtain ⟨r, hr, -⟩ := Fault.bind_eq_ok.1 hx
        exact hmeet.1 ⟨r, hr⟩
      · intro hfar
        obtain ⟨r, hr⟩ := hmeet.2 (hfar a b rfl rfl)
        refine ⟨.int r, ?_⟩
        unfold meet meetWith
        rw [hr]
        rfl
    | _ => exact iff_of_true ⟨_, rfl⟩ fun _ _ _ hw => by cases hw
  | _ =>
    cases w with
    | array b => exact absurd hw id
    | _ => exact iff_of_true ⟨_, rfl⟩ fun _ _ hv => by cases hv

lemma le_iff_of_meet (hv : v.Scalar) (hw : w.Scalar) (hu : u.Scalar) (huv : u.le v = .ok true)
    (huw : u.le w = .ok true) (h : v.meet w = .ok x) :
    u.le x = .ok true ↔ u.isBottom = .ok true ∨ v.crossed w = false := by
  have hx := scalar_meet hv hw h
  rw [le_iff hu hv] at huv
  rw [le_iff hu hw] at huw
  rw [le_iff hu hx]
  constructor
  · intro hux
    by_cases hcross : v.crossed w = true
    · rw [meet_of_crossed hcross] at h
      cases h
      have hvoid := (isBottom_iff (isBottom_eq hu)).2 (hux.void_of_void .bottom)
      exact .inl ((isBottom_eq hu).trans (congrArg _ hvoid))
    · exact .inr (by simpa using hcross)
  · rintro (hvoid | hcross)
    · exact .void (void_of_isBottom hvoid)
    · exact below_meet hv hw hu hcross huv huw h

/-- Meets of integers and addresses against the order.  A value below two values is below their meet
unless one of the two is an integer and the other an address; so is the smaller one of two values.
The meet has a result unless the values are integers and an end of their common interval is too near
to the least word. -/
theorem le_meet_iff (hv : v.Scalar) (hw : w.Scalar) (hu : u.Scalar) :
    (u.le v = .ok true → u.le w = .ok true → ∀ x, v.meet w = .ok x →
      (u.le x = .ok true ↔ u.isBottom = .ok true ∨ v.crossed w = false)) ∧
    (v.le w = .ok true → ∀ x, v.meet w = .ok x ∨ w.meet v = .ok x →
      (v.le x = .ok true ↔ v.isBottom = .ok true ∨ v.crossed w = false)) ∧
    ((∃ x, v.meet w = .ok x) ↔ ∀ a b, v = .int a → w = .int b →
      ¬ IntVal.NearLeast (a.interval.meet b.interval) (a.congruence.meet b.congruence)) := by
  have hself : v.le v = .ok true := (le_iff hv hv).2 (.refl v)
  refine ⟨fun huv huw x h => le_iff_of_meet hv hw hu huv huw h, fun hvw x h => ?_,
    exists_meet_iff hv hw⟩
  rcases h with h | h
  · exact le_iff_of_meet hv hw hv hself hvw h
  · rw [crossed_comm]
    exact le_iff_of_meet hw hv hv hvw hself h

/-- Six is in both of two ranges with strides two and three and in their meet; zero is an integer
and below the null pointer, and not below the meet of the two. -/
theorem le_meet_iff_six :
    (∃ x, (int ⟨.range 0 10, .residue 0 2⟩).meet (.int ⟨.range 3 9, .residue 0 3⟩) = .ok x ∧
      (ofInt 6).le x = .ok true) ∧
    ∀ x, (ofInt 0).meet (.addr .null) = .ok x → (ofInt 0).le x ≠ .ok true := by
  have heven : (int ⟨.range 0 10, .residue 0 2⟩).Scalar :=
    IntVal.tight_of_reduced (i := .range 0 10) (g := .residue 0 2)
      (proper_between rfl rfl) ⟨by decide, by decide, by decide, by decide⟩ (by decide)
  have hthree : (int ⟨.range 3 9, .residue 0 3⟩).Scalar :=
    IntVal.tight_of_reduced (i := .range 3 9) (g := .residue 0 3)
      (proper_between rfl rfl) ⟨by decide, by decide, by decide, by decide⟩ (by decide)
  have hsix : (ofInt 6).Scalar := scalar_ofInt (by decide)
  have hzero : (ofInt 0).Scalar := scalar_ofInt (by decide)
  have hmeet : (int ⟨.range 0 10, .residue 0 2⟩).meet (.int ⟨.range 3 9, .residue 0 3⟩) =
      .ok (ofInt 6) := by decide +kernel
  constructor
  · exact ⟨_, hmeet, ((le_meet_iff heven hthree hsix).1 (by decide) (by decide) _ hmeet).2
      (.inr rfl)⟩
  · intro x hx hle
    rcases ((le_meet_iff hzero (scalar_addr .null) hzero).2.1 (by decide) x (.inl hx)).1 hle with h | h
    · exact absurd h (by decide)
    · cases h

/-- Zero is below the null pointer, and the meet of the two is empty on either side. -/
theorem zero_not_le_meet_null :
    (ofInt 0).Scalar ∧ (addr .null).Scalar ∧ (ofInt 0).le (addr .null) = .ok true ∧
    (ofInt 0).meet (addr .null) = .ok .bottom ∧ (addr .null).meet (ofInt 0) = .ok .bottom ∧
    (ofInt 0).le .bottom = .ok false :=
  ⟨scalar_ofInt (by decide), trivial, by decide, by decide, by decide, by decide⟩

end Value
end StaticAnalysis
