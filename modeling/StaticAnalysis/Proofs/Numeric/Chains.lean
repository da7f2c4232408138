import StaticAnalysis.Proofs.Numeric.Reduction
import StaticAnalysis.Proofs.Order.Chains

/-!
# Widening integers comes to rest

A bound of an interval that moves becomes infinite and then stays.  The moduli of a growing sequence
of congruence classes divide one another; a modulus that has become positive can only get smaller.
-/

namespace StaticAnalysis

open Filter Chain

namespace Interval

lemma eventually_widen_eq {i : ℕ → Interval} (hne : ∀ n, (i n).isEmpty = false)
    (h : ∀ n, ∃ j, i (n + 1) = (i n).widen j) : ∀ᶠ n in atTop, i (n + 1) = i n := by
  have hbounds : ∀ n, ((i (n + 1)).low = (i n).low ∨ (i (n + 1)).low = .negInf) ∧
      ((i (n + 1)).high = (i n).high ∨ (i (n + 1)).high = .posInf) := by
    intro n
    obtain ⟨j, hj⟩ := h n
    rw [hj, widen, if_neg (by simp [hne n])]
    split
    · exact ⟨.inl rfl, .inl rfl⟩
    · constructor <;> dsimp only <;> split <;> simp
  have hlow : ∀ᶠ n in atTop, (i (n + 1)).low = (i n).low :=
    eventually_eq_of_absorbing (x := fun n => (i n).low) .negInf fun n => (hbounds n).1
  have hhigh : ∀ᶠ n in atTop, (i (n + 1)).high = (i n).high :=
    eventually_eq_of_absorbing (x := fun n => (i n).high) .posInf fun n => (hbounds n).2
  filter_upwards [hlow, hhigh] with n hl hh
  exact congrArg₂ Interval.mk hl hh

end Interval

namespace Congruence

lemma eventually_le {g : ℕ → Congruence} (hne : ∀ n, g n ≠ .bottom)
    (h : ∀ n, (g n).le (g (n + 1))) : ∀ᶠ n in atTop, (g (n + 1)).le (g n) := by
  have hresidue : ∀ n, ∃ c k, g n = .residue c k := fun n => by
    cases hn : g n with
    | bottom => exact absurd hn (hne n)
    | residue c k => exact ⟨c, k, rfl⟩
  choose c k hg using hresidue
  simp only [hg, residue_le_residue] at h ⊢
  have hrest : ∀ᶠ n in atTop, (k (n + 1)).natAbs = (k n).natAbs := by
    -- Divisors of zero have no bound, so the constants before the first stride are set apart.
    rcases eventually_or_never (Q := fun n => k n ≠ 0)
        (fun n hn hz => hn (zero_dvd_iff.1 (hz ▸ (h n).1))) with ⟨N, hN⟩ | hzero
    · exact eventually_of_tail N (eventually_eq_of_antitone fun n =>
        Nat.le_of_dvd (Int.natAbs_pos.2 (hN n)) (Int.natAbs_dvd_natAbs.2 (h (N + n)).1))
    · exact .of_forall fun n => by rw [not_not.1 (hzero (n + 1)), not_not.1 (hzero n)]
  refine hrest.mono fun n hn => ?_
  have hk : k n ∣ k (n + 1) := Int.natAbs_dvd_natAbs.1 (dvd_of_eq hn.symm)
  exact ⟨hk, hk.trans (dvd_sub_comm.1 (h n).2)⟩

end Congruence

namespace IntVal

lemma eventually_widen_le {a : ℕ → IntVal} (hne : ∀ n, (a n).isBottom = false)
    (h : ∀ n, ∃ b, a (n + 1) = (a n).widen b) : ∀ᶠ n in atTop, (a (n + 1)).le (a n) := by
  have hparts : ∀ n, (∃ i, (a (n + 1)).interval = (a n).interval.widen i) ∧
      (a n).congruence.le (a (n + 1)).congruence = true := by
    intro n
    obtain ⟨b, hb⟩ := h n
    rw [hb, widen, if_neg (by simp [hne n])]
    split
    · exact ⟨⟨.bottom, by simp [Interval.widen, (isBottom_eq_false.1 (hne n)).1]⟩,
        Congruence.le_self _⟩
    · exact ⟨⟨b.interval, rfl⟩, Congruence.le_join_left _ _⟩
  have hinterval := Interval.eventually_widen_eq (fun n => (isBottom_eq_false.1 (hne n)).1)
    fun n => (hparts n).1
  have hclass := Congruence.eventually_le (fun n => (isBottom_eq_false.1 (hne n)).2)
    fun n => (hparts n).2
  filter_upwards [hinterval, hclass] with n hi hg
  exact le_iff.2 fun _ => ⟨hi ▸ Interval.le_self _, hg⟩

end IntVal
end StaticAnalysis
