import Mathlib.Data.List.Flatten
import Mathlib.Logic.Relation
import StaticAnalysis.Order.Closure
import StaticAnalysis.Proofs.Order.Containers

/-!
# What a closure contains

A closure that ends contains what it started from and the successors of all its members.  The steps
it is given suffice: each step takes one element from the work, and an element of the carrier puts
its successors into the work only when it is met for the first time, so the work together with the
successors that are still to come shrinks.

Nor does it contain more: every set that holds the start and is closed under successors holds it.
-/

namespace StaticAnalysis

open SortedSet Bool
open List hiding contains_iff

namespace Closure

variable {ε κ : Type} {expand : κ → Except ε (List κ)} {carrier : List κ}

/-- The successors of an element, if it has any. -/
def successors (expand : κ → Except ε (List κ)) (k : κ) : List κ :=
  match expand k with
  | .ok next => next
  | .error _ => []

variable {k : κ} {fuel : Nat} {work start : List κ} {P : κ → Prop}

variable [Ord κ]

/-- The successors that elements not met yet may still put into the work. -/
def pending (expand : κ → Except ε (List κ)) (carrier : List κ) (seen : SortedSet κ) : List κ :=
  (carrier.filter fun k => !seen.contains k).flatMap (successors expand)

lemma steps_eq (work : List κ) :
    steps expand carrier work = work.length + (pending expand carrier .empty).length + 1 := by
  have hnone : ∀ k : κ, (empty : SortedSet κ).contains k = false := fun _ => rfl
  simp only [pending, hnone, Bool.not_false, filter_true]
  rfl

variable [Std.TransOrd κ] [Std.LawfulEqOrd κ]

variable {seen r : SortedSet κ}

lemma contains_insert_of_ne {a : κ} (h : a ≠ k) : (seen.insert k).contains a = seen.contains a := by
  rw [Bool.eq_iff_iff, contains_iff, contains_iff, mem_insert, or_iff_right h]

lemma length_pending_insert_le (seen : SortedSet κ) (k : κ) (carrier : List κ) :
    (pending expand carrier (seen.insert k)).length ≤ (pending expand carrier seen).length := by
  refine (List.Sublist.flatMap ?_ (successors expand)).length_le
  refine monotone_filter_right carrier fun a ha => ?_
  rw [not_eq_true', ← not_eq_true, contains_iff] at ha ⊢
  exact fun hmem => ha (mem_insert.2 (.inr hmem))

/-- Meeting an element takes its successors from those that are still to come. -/
lemma length_pending_insert (hk : k ∈ carrier) (hnew : seen.contains k = false) :
    (pending expand carrier (seen.insert k)).length + (successors expand k).length ≤
    (pending expand carrier seen).length := by
  induction carrier with
  | nil => cases hk
  | cons a carrier ih =>
    simp only [pending, filter_cons] at ih ⊢
    by_cases ha : a = k
    · subst ha
      have hmet : (seen.insert a).contains a = true :=
        contains_iff.2 (mem_insert.2 (.inl rfl))
      have hle : (pending expand carrier (seen.insert a)).length ≤
        (pending expand carrier seen).length :=
        length_pending_insert_le seen a carrier
      simp only [pending] at hle
      simp only [hmet, hnew, Bool.not_true, Bool.not_false, Bool.false_eq_true, if_false, if_true,
        flatMap_cons, length_append]
      omega
    · have hrest := ih ((List.mem_cons.1 hk).resolve_left fun h => ha h.symm)
      rw [contains_insert_of_ne ha]
      split
      · simp only [flatMap_cons, length_append]
        omega
      · exact hrest

/-- A set is closed: every member can be expanded, and its successors are members. -/
def IsClosed (expand : κ → Except ε (List κ)) (r : SortedSet κ) : Prop :=
  ∀ k ∈ r, ∃ next, expand k = .ok next ∧ ∀ j ∈ next, j ∈ r

/-- The invariant of a run: what was met has its successors among what was met or in the work. -/
lemma run_closed
    (hfuel : work.length + (pending expand carrier seen).length < fuel)
    (hwork : ∀ k ∈ work, k ∈ carrier)
    (hcarrier : ∀ k ∈ carrier, ∀ next, expand k = .ok next → ∀ j ∈ next, j ∈ carrier)
    (hseen : ∀ k ∈ seen, ∃ next, expand k = .ok next ∧ ∀ j ∈ next, j ∈ seen ∨ j ∈ work)
    (h : run expand fuel seen work = .ok r) : (∀ k, k ∈ seen ∨ k ∈ work → k ∈ r) ∧
      IsClosed expand r := by
  induction fuel generalizing seen work with
  | zero => omega
  | succ fuel ih =>
    cases work with
    | nil =>
      cases h
      refine ⟨fun k hk => hk.resolve_right not_mem_nil, fun k hk => ?_⟩
      obtain ⟨next, hnext, hmem⟩ := hseen k hk
      exact ⟨next, hnext, fun j hj => (hmem j hj).resolve_right not_mem_nil⟩
    | cons k work =>
      obtain ⟨hk, hwork⟩ := List.forall_mem_cons.1 hwork
      simp only [length_cons] at hfuel
      rw [run] at h
      split at h
      next hmet =>
        -- The element was met before, so it leaves the work.
        have hmem : k ∈ seen := contains_iff.1 hmet
        have hdrop : ∀ j, j ∈ seen ∨ j ∈ k :: work → j ∈ seen ∨ j ∈ work := by
          rintro j (hj | hj)
          · exact .inl hj
          · rcases List.mem_cons.1 hj with rfl | hj
            exacts [.inl hmem, .inr hj]
        obtain ⟨hin, hclosed⟩ := ih (by omega) hwork
          (fun j hj => (hseen j hj).imp fun next hn => ⟨hn.1, fun i hi => hdrop i (hn.2 i hi)⟩) h
        exact ⟨fun j hj => hin j (hdrop j hj), hclosed⟩
      next hnew =>
        rw [not_eq_true] at hnew
        split at h
        · cases h
        next next hnext =>
          have hsuccessors : successors expand k = next := by simp [successors, hnext]
          have hshrink : (pending expand carrier (seen.insert k)).length + next.length ≤
              (pending expand carrier seen).length :=
            hsuccessors ▸ length_pending_insert hk hnew
          have hwork' : ∀ j ∈ next.reverse ++ work, j ∈ carrier := by
            refine List.forall_mem_append.2 ⟨fun j hj => ?_, hwork⟩
            exact hcarrier k hk next hnext j (List.mem_reverse.1 hj)
          have hgo : ∀ j, j ∈ seen ∨ j ∈ k :: work →
              j ∈ seen.insert k ∨ j ∈ next.reverse ++ work := by
            rintro j (hj | hj)
            · exact .inl (mem_insert.2 (.inr hj))
            · rcases List.mem_cons.1 hj with rfl | hj
              · exact .inl (mem_insert.2 (.inl rfl))
              · exact .inr (mem_append_right _ hj)
          obtain ⟨hin, hclosed⟩ := ih
            (by simp only [length_append, length_reverse]; omega) hwork'
            (fun j hj => by
              rcases mem_insert.1 hj with rfl | hj
              · exact ⟨next, hnext, fun i hi => .inr (mem_append_left _ (List.mem_reverse.2 hi))⟩
              · exact (hseen j hj).imp fun _ hn => ⟨hn.1, fun i hi => hgo i (hn.2 i hi)⟩) h
          exact ⟨fun j hj => hin j (hgo j hj), hclosed⟩

lemma reach_closed (hstart : ∀ k ∈ start, k ∈ carrier)
    (hcarrier : ∀ k ∈ carrier, ∀ next, expand k = .ok next → ∀ j ∈ next, j ∈ carrier)
    (h : reach carrier expand start = .ok r) : (∀ k ∈ start, k ∈ r) ∧ IsClosed expand r := by
  rw [reach, steps_eq] at h
  obtain ⟨hin, hclosed⟩ := run_closed (by simp) (fun k hk => hstart k (List.mem_reverse.1 hk))
    hcarrier (fun k hk => absurd hk (not_mem_empty k)) h
  exact ⟨fun k hk => hin k (.inr (List.mem_reverse.2 hk)), hclosed⟩

section

variable (hP : ∀ k, P k → ∀ next, expand k = .ok next → ∀ j ∈ next, P j)
include hP

/-- A run meets only elements of any closed set that holds its work, and it refuses only at such. -/
lemma run_within {seen : SortedSet κ} (hseen : ∀ k ∈ seen, P k) (hwork : ∀ k ∈ work, P k) :
    (∀ r, run expand fuel seen work = .ok r → ∀ k ∈ r, P k) ∧ ∀ e,
    run expand fuel seen work = .error e →
    ∃ k, P k ∧ expand k = .error e := by
  induction fuel generalizing seen work with
  | zero => exact ⟨fun r hr => Except.ok.inj hr ▸ hseen, fun e he => by cases he⟩
  | succ fuel ih =>
    cases work with
    | nil => exact ⟨fun r hr => Except.ok.inj hr ▸ hseen, fun e he => by cases he⟩
    | cons k work =>
      obtain ⟨hk, hwork⟩ := List.forall_mem_cons.1 hwork
      rw [run]
      split
      · exact ih hseen hwork
      · split
        next e' he' =>
          refine ⟨fun r hr => ?_, fun e he => ⟨k, hk, ?_⟩⟩
          · cases hr
          · rw [he', Except.error.inj he]
        next next hnext =>
          refine ih (fun j hj => ?_) (List.forall_mem_append.2 ⟨fun j hj => ?_, hwork⟩)
          · exact (mem_insert.1 hj).elim (fun h => h ▸ hk) (hseen j)
          · exact hP k hk next hnext j (List.mem_reverse.1 hj)

lemma reach_within
    (hstart : ∀ k ∈ start, P k) : (∀ r, reach carrier expand start = .ok r → ∀ k ∈ r, P k) ∧ ∀ e,
    reach
    carrier expand start = .error e → ∃ k, P k ∧ expand k = .error e :=
  run_within hP (fun k hk => absurd hk (not_mem_empty k))
    fun k hk => hstart k (List.mem_reverse.1 hk)

end

/-- The search for a goal succeeds exactly if a path leads to it. -/
lemma reaches_iff [DecidableEq κ] {next : κ → List κ} {goal : κ} (hstart : ∀ k ∈ start, k ∈ carrier)
    (hcarrier : ∀ k ∈ carrier, ∀ j ∈ next k, j ∈ carrier) :
    reaches carrier next start goal ↔ ∃ k ∈ start,
    Relation.ReflTransGen (fun a b => b ∈ next a) k goal := by
  have hexpand {k : κ} {l : List κ}
      (h : (if k = goal then Except.error () else .ok (next k)) = .ok l) : k ≠ goal ∧
      next k = l := by
    split at h
    · cases h
    next hne => exact ⟨hne, Except.ok.inj h⟩
  unfold reaches
  dsimp only
  split
  next r hr =>
    obtain ⟨hin, hclosed⟩ := reach_closed hstart
      (fun k hk l hl j hj => hcarrier k hk j ((hexpand hl).2 ▸ hj)) hr
    refine iff_of_false false_ne_true ?_
    rintro ⟨k, hk, hpath⟩
    -- All that can be reached was met, but the goal cannot have been.
    have hmet {j : κ} (hpath : Relation.ReflTransGen (fun a b => b ∈ next a) k j) : j ∈ r := by
      induction hpath with
      | refl => exact hin k hk
      | tail _ hstep ih =>
        obtain ⟨l, hl, hmem⟩ := hclosed _ ih
        exact hmem _ ((hexpand hl).2 ▸ hstep)
    obtain ⟨l, hl, -⟩ := hclosed goal (hmet hpath)
    exact (hexpand hl).1 rfl
  next e he =>
    refine iff_of_true rfl ?_
    have hP : ∀ k, (∃ s ∈ start, Relation.ReflTransGen (fun a b => b ∈ next a) s k) →
        ∀ l, (if k = goal then Except.error () else .ok (next k)) = .ok l → ∀ j ∈ l,
          ∃ s ∈ start, Relation.ReflTransGen (fun a b => b ∈ next a) s j := by
      rintro k ⟨s, hs, hpath⟩ l hl j hj
      exact ⟨s, hs, hpath.tail ((hexpand hl).2 ▸ hj)⟩
    obtain ⟨k, hk, hrefused⟩ := (reach_within hP fun k hk => ⟨k, hk, .refl⟩).2 e he
    split at hrefused
    next heq => exact heq ▸ hk
    · cases hrefused

end Closure
end StaticAnalysis
