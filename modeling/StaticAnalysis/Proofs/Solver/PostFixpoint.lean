import StaticAnalysis.Program.Lowering
import StaticAnalysis.Program.Validity
import StaticAnalysis.Proofs.Solver.Stability

/-!
# Solutions are post-fixpoints

A solution can be checked without trusting the solver: evaluate every point once more against the
solution, and compare the result with the stored state and every contribution with the stored
value.  `Solution.isPostFixpoint` is this check.  Without descending rounds the solver's solution of
a scalar program passes it.  If a struct has array fields the solution need not pass it, also if no
variable is an array (`not_isPostFixpoint_twoLengths`).
-/

namespace StaticAnalysis

open Fault

/-! ## Checking a solution -/

/-- A solution that is asked but not changed; contributions are only collected. -/
structure Recheck where
  solution : Solution
  made : List (GlobalKey × GlobalValue)

instance : SharedStore Recheck where
  lookup key r := (r.solution.globals.value key, r)
  stateAt p r := (r.solution.states.get? p, r)
  contribute key v r := .ok { r with made := r.made ++ [(key, v)] }

namespace Solution

/-- Whether the equation of a point gives a state below `s`, with all its contributions below the
shared values of the solution. -/
def isBounded (sol : Solution) (g : Graph) (settings : Settings) (p : Point) (s : State) :
    Except Fault Bool :=
  match (evaluate g settings p).run (⟨sol, []⟩ : Recheck) with
  | .ok t r => do
    if ← t.le s then r.made.allM fun (k, v) => v.le (sol.globals.value k)
    else return false
  | .error f _ => .error f

/-- Whether every state of a solution bounds the equation of its point. -/
def isPostFixpoint (sol : Solution) (g : Graph) (settings : Settings) : Except Fault Bool :=
  sol.states.entries.allM fun (p, s) => sol.isBounded g settings p s

end Solution

namespace Solver

variable {α : Type} {s : Solver} {p : Point} {x : Step α} {a : α}

/-- A settled step has the same result against the solution, and contributes only what the solution
bounds. -/
lemma Settled.run_recheck (made : List (GlobalKey × GlobalValue)) (h : Settled s p x a)
    (hmade : ∀ e ∈ made, e.2.le (s.globals.value e.1) = .ok true) :
    ∃ made', x.run (⟨s.solution, made⟩ : Recheck) = .ok a ⟨s.solution, made'⟩ ∧
      ∀ e ∈ made', e.2.le (s.globals.value e.1) = .ok true := by
  induction x generalizing made with
  | done b => exact ⟨made, by rw [← h]; rfl, hmade⟩
  | fault f => exact absurd h id
  | lookup k next ih => exact ih _ _ h.2 hmade
  | stateAt q next ih => exact ih _ _ h.2 hmade
  | contribute k v next ih =>
    refine ih _ h.2 fun e he => ?_
    rcases List.mem_append.1 he with he | he
    · exact hmade e he
    · cases List.mem_singleton.1 he
      exact h.1

lemma Consistent.isPostFixpoint (h : s.Consistent) (hempty : ∀ p, p ∉ s.worklist) :
    s.solution.isPostFixpoint s.graph s.settings = .ok true := by
  have hbounded : ∀ e ∈ s.solution.states.entries,
      s.solution.isBounded s.graph s.settings e.1 e.2 = .ok true := by
    rintro ⟨p, b⟩ he
    have hb : s.states.get? p = some b := SortedMap.get?_eq_some_iff.2 he
    obtain ⟨a, c, hset, hc, hle⟩ := (h.stable p b hb).resolve_left (hempty p)
    cases hb.symm.trans hc
    obtain ⟨made, hrun, hmade⟩ := hset.run_recheck [] (by simp)
    dsimp only [Solution.isBounded]
    rw [hrun]
    dsimp only
    rw [hle, ok_bind, if_pos rfl]
    exact allM_eq_true hmade
  exact allM_eq_true hbounded

/-- Without descending rounds, the solution of a scalar program is a post-fixpoint. -/
theorem isPostFixpoint_of_solve {g : Graph} {settings : Settings} {sol : Solution}
    (hscalar : g.isScalar = true) (hrelation : settings.relation = .none)
    (hrounds : settings.narrowingRounds = 0) (h : (new g settings).solve = .ok sol) :
    sol.isPostFixpoint g settings = .ok true := by
  obtain ⟨s, hs, hempty, rfl, rfl, rfl⟩ := consistent_of_solve hscalar hrelation hrounds h
  exact hs.isPostFixpoint hempty

/-- A loop in `main` that counts a global up while a thread, started before, resets it under a
mutex. -/
def counterAndReset : Graph :=
  (Graph.ofFunctions { globals := .ofList [("g", ⟨⟨"g", .int⟩, []⟩)] } [
    ⟨"reset", [⟨"v", .int⟩], [], .block [
      .act (.lock "m"), .act (.assign (.var "g") (.read (.var "v"))), .act (.unlock "m")]⟩,
    ⟨"main", [], [], .block [
      .act (.spawn "reset" (some (.const 0))),
      .loop (.cmp .lt (.read (.var "g")) (.const 10)) (.block [
        .act (.lock "m"),
        .act (.assign (.var "g") (.arith .add (.read (.var "g")) (.const 1))),
        .act (.unlock "m")])]⟩]).toOption.getD {}

/-- The solution of `counterAndReset`, in which shared values are read, contributed and widened in
the middle of evaluations, is a post-fixpoint. -/
theorem isPostFixpoint_counterAndReset :
    ∃ sol, (new counterAndReset { narrowingRounds := 0 }).solve = .ok sol ∧
      sol.isPostFixpoint counterAndReset { narrowingRounds := 0 } = .ok true := by
  have hok : (new counterAndReset { narrowingRounds := 0 }).solve.toBool = true := by
    decide +kernel
  cases h : (new counterAndReset { narrowingRounds := 0 }).solve with
  | error e => simp [h, Except.toBool] at hok
  | ok sol => exact ⟨sol, rfl, isPostFixpoint_of_solve (by decide +kernel) rfl rfl h⟩

/-- A loop in which a variable gets one of two arrays of a struct, which differ in length. -/
def twoLengths : Graph :=
  (Graph.ofFunctions {
      structs := .ofList [("S", [⟨"a", .array .int 4⟩, ⟨"b", .array .int 8⟩])]
      globals := .ofList [("s", ⟨⟨"s", .struct "S"⟩, []⟩)] } [
    ⟨"main", [], [⟨"x", .int⟩], .block [
      .act (.assign (.var "x") (.read (.field (.var "s") "a"))),
      .loop (.cmp .eq .unknown (.const 0)) (.block [
        .act (.assign (.var "x") (.read (.field (.var "s") "b"))),
        .act (.assign (.index (.var "x") (.const 6)) (.const 1))])]⟩]).toOption.getD {}

/-- An array that is widened by one with another split keeps its length.  So the state of the loop
head is not above what comes back from the body, where the length differs. -/
theorem not_isPostFixpoint_twoLengths :
    twoLengths.validate = .ok () ∧
    ∃ sol, (new twoLengths { narrowingRounds := 0, wideningDelay := 0 }).solve = .ok sol ∧
      sol.isPostFixpoint twoLengths { narrowingRounds := 0, wideningDelay := 0 } = .ok false := by
  obtain ⟨sol, hsol, hfails⟩ := exists_of_any
    (x := (new twoLengths { narrowingRounds := 0, wideningDelay := 0 }).solve)
    (p := fun sol =>
      sol.isPostFixpoint twoLengths { narrowingRounds := 0, wideningDelay := 0 } = .ok false)
    (by decide +kernel)
  exact ⟨by decide +kernel, sol, hsol, of_decide_eq_true hfails⟩

end Solver
end StaticAnalysis
