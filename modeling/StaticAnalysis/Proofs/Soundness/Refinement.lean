import StaticAnalysis.Proofs.Soundness.Evaluation
import StaticAnalysis.Proofs.Soundness.IntegerRefinement

/-!
# Conditions as constraints cover runs

Restricting a state to the runs in which a condition holds loses no moment at which it holds.  So a
check that decides a condition decides it for every covered moment.
-/

namespace StaticAnalysis.State

open Step

variable {C : Contract} {env : Env} {s : State} {m : Moment}

/-- A state is numeric, and a covered moment stays covered if `P` holds. -/
structure Keeps (env : Env) (s : State) (m : Moment) (P : Prop) (r : State) : Prop where
  numeric : r.Numeric
  covers : s.Covers env.modular m → P → r.Covers env.modular m

lemma Keeps.refl {P : Prop} (hs : s.Numeric) : Keeps env s m P s := ⟨hs, fun hcov _ => hcov⟩

lemma keeps_guard (hC : C.Numeric) (henv : env.Sequential) (hm : m.function = env.function)
    (holds : Bool) (c : Cond) (hc : c.isInteger) {s : State} (hs : s.Numeric) :
    (guard env holds c s).Meets C (Keeps env s m (c.Outcome (m.read env.graph) holds)) := by
  rw [Cond.isInteger_eq] at hc
  have hrefines := refines_integers (K := .numeric) (fits_view hC hm) henv.relation
  refine (Reading.restricts_guard hrefines holds c hc hs).mono fun r hr =>
    ⟨hr.mem, fun hcov hb => ?_⟩
  exact covers_iff.2 (hr.describes (covers_iff.1 hcov) hb)

lemma decides_check (hC : C.Numeric) (henv : env.Sequential) (hs : s.Numeric)
    (hm : m.function = env.function) {c : Cond} (hc : c.isInteger) :
    (s.check env c).Meets C (Decides env s m c) := by
  rw [Cond.isInteger_eq] at hc
  have hrefines := refines_integers (K := .numeric) (fits_view hC hm) henv.relation
  refine (Reading.judges_check hrefines hs hc).mono fun t ht => ?_
  exact fun hcov => ht (covers_iff.1 hcov)

end StaticAnalysis.State
