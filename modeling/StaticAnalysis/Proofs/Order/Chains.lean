import Mathlib.Order.Filter.AtTopBot.Basic
import Mathlib.Order.Filter.Finite
import Mathlib.Order.OrderIsoNat

/-!
# Sequences that come to rest

What a sequence keeps once it has it, it has from some point on or never has.  From that follow the
ways in which the parts of a widened state come to rest: a part that can only move to one place and
stays there, a number that does not grow, and members of a finite set that are only added or only
removed.
-/

namespace StaticAnalysis.Chain

open Filter

variable {Q : ℕ → Prop} {α : Type}

lemma eventually_or_never (h : ∀ n, Q n → Q (n + 1)) : (∃ N, ∀ n, Q (N + n)) ∨ ∀ n, ¬ Q n := by
  by_cases hex : ∃ N, Q N
  · obtain ⟨N, hN⟩ := hex
    refine .inl ⟨N, fun n => ?_⟩
    induction n with
    | zero => exact hN
    | succ n ih => exact h _ ih
  · exact .inr fun n hn => hex ⟨n, hn⟩

lemma eventually_of_tail {P : ℕ → Prop} (N : ℕ) (h : ∀ᶠ n in atTop, P (N + n)) :
    ∀ᶠ n in atTop, P n := by
  obtain ⟨M, hM⟩ := eventually_atTop.1 h
  refine eventually_atTop.2 ⟨N + M, fun n hn => ?_⟩
  have hn' := hM (n - N) (by omega)
  rwa [Nat.add_sub_cancel' (by omega)] at hn'

lemma eventually_not_new (h : ∀ n, Q n → Q (n + 1)) : ∀ᶠ n in atTop, Q (n + 1) → Q n := by
  rcases eventually_or_never h with ⟨N, hN⟩ | hnever
  · exact eventually_of_tail N (.of_forall fun n _ => hN n)
  · exact .of_forall fun n hn => absurd hn (hnever (n + 1))

/-- A sequence that starts with a value of one form and keeps the form is a sequence of what it
holds. -/
lemma exists_contents {β : Type} {x : ℕ → α} {f : β → α} (hf : f.Injective) {R : β → β → Prop}
    (hzero : ∃ b, x 0 = f b) (h : ∀ n b, x n = f b → ∃ c, x (n + 1) = f c ∧ R b c) : ∃ y : ℕ → β,
    (∀ n, x n = f (y n)) ∧ ∀ n, R (y n) (y (n + 1)) := by
  have hform : ∀ n, ∃ b, x n = f b := by
    intro n
    induction n with
    | zero => exact hzero
    | succ n ih =>
      obtain ⟨b, hb⟩ := ih
      exact (h n b hb).imp fun _ => And.left
  choose y hy using hform
  refine ⟨y, hy, fun n => ?_⟩
  obtain ⟨c, hc, hR⟩ := h n _ (hy n)
  rwa [hf ((hy (n + 1)).symm.trans hc)]

lemma eventually_eq_of_absorbing {x : ℕ → α} (a : α) (h : ∀ n, x (n + 1) = x n ∨ x (n + 1) = a) :
    ∀ᶠ n in atTop, x (n + 1) = x n := by
  have hkept : ∀ n, x n = a → x (n + 1) = a := fun n hn => (h n).elim (·.trans hn) id
  refine (eventually_not_new hkept).mono fun n hn => ?_
  rcases h n with heq | heq
  · exact heq
  · exact heq.trans (hn heq).symm

lemma eventually_eq_of_antitone [PartialOrder α] [WellFoundedLT α] {x : ℕ → α}
    (h : ∀ n, x (n + 1) ≤ x n) : ∀ᶠ n in atTop, x (n + 1) = x n := by
  obtain ⟨N, hN⟩ := WellFoundedGT.monotone_chain_condition (α := αᵒᵈ)
    ⟨fun n => OrderDual.toDual (x n), monotone_nat_of_le_succ h⟩
  exact eventually_atTop.2 ⟨N, fun n hn => (hN (n + 1) (by omega)).symm.trans (hN n hn)⟩

lemma eventually_subset {S : Set α} (hS : S.Finite) {x : ℕ → Set α} (hx : ∀ n, x n ⊆ S)
    (h : ∀ n, x n ⊆ x (n + 1)) : ∀ᶠ n in atTop, x (n + 1) ⊆ x n := by
  have hall : ∀ᶠ n in atTop, ∀ a ∈ S, a ∈ x (n + 1) → a ∈ x n :=
    (eventually_all_finite hS).2 fun a _ => eventually_not_new (Q := fun n => a ∈ x n) fun n =>
      @h n a
  exact hall.mono fun n hn a ha => hn a (hx (n + 1) ha) ha

lemma eventually_superset {x : ℕ → Set α} (hx : (x 0).Finite) (h : ∀ n, x (n + 1) ⊆ x n) :
    ∀ᶠ n in atTop, x n ⊆ x (n + 1) := by
  have hsub : ∀ n, x n ⊆ x 0 := fun n => antitone_nat_of_succ_le h (Nat.zero_le n)
  have hall : ∀ᶠ n in atTop, ∀ a ∈ x 0, a ∉ x (n + 1) → a ∉ x n :=
    (eventually_all_finite hx).2 fun a _ =>
      eventually_not_new (Q := fun n => a ∉ x n) fun n hn ha => hn (h n ha)
  exact hall.mono fun n hn a ha => not_not.1 fun hnot => hn a (hsub n ha) hnot ha

end StaticAnalysis.Chain
