import StaticAnalysis.Report.Verdict
import StaticAnalysis.Solver.Solution
import StaticAnalysis.Transfer.Edge

/-!
# Reports

Once a program is solved, every edge that leaves a reachable point is replayed against the solution.
Checks are decided in the state before their edge, mutex operations against the mutexes held there,
and the accesses that the replay records are searched for races.
-/

namespace StaticAnalysis

/-- A finished solution as a store: contributions are dropped, except for accesses, which are
collected. -/
structure Replay where
  solution : Solution
  accesses : AccessMap := .empty

namespace Replay

/-- Collect a contribution if it is one of accesses. -/
def collect (r : Replay) : GlobalKey → GlobalValue → Replay
  | .shared (.accesses c), .accesses a => { r with accesses := r.accesses.add c a }
  | _, _ => r

instance : SharedStore Replay where
  lookup key r := (r.solution.globals.value key, r)
  stateAt p r := (r.solution.states.get? p, r)
  contribute key v r := .ok (r.collect key v)

end Replay

structure Report where
  checks : List CheckResult
  locks : List LockCheck
  warnings : List Warning
deriving DecidableEq

namespace Report

/-- The verdicts that a replay finds, by check and by edge. -/
structure Findings where
  checks : SortedMap Nat Verdict := .empty
  locks : SortedMap Nat Verdict := .empty

/-- Combine a verdict with those found before under the same number. -/
def addVerdict (m : SortedMap Nat Verdict) (id : Nat) (v : Verdict) : SortedMap Nat Verdict :=
  m.insert id (((m.get? id).getD v).combine v)

variable (graph : Graph) (settings : Settings)

def replayEdge (function : String) (p : Point) (s : State)
    (found : Findings) (id : Nat) (e : Edge) : Step Findings := do
  let _ ← transfer graph settings function p.context id e s
  match e.action with
  | .check check c =>
    let env : Env := {
      graph
      settings
      function
      thread := p.context.thread
      edge := id
      modular := p.context.isModular }
    let verdict := Verdict.ofTruth (← s.check env c)
    return { found with checks := addVerdict found.checks check verdict }
  | .lock m =>
    let verdict := Verdict.ofTruth (s.locks.lockSafety m (graph.mutexKind m))
    return { found with locks := addVerdict found.locks id verdict }
  | .unlock m =>
    let verdict := Verdict.ofTruth (s.locks.unlockSafety m)
    return { found with locks := addVerdict found.locks id verdict }
  | _ => return found

def replayPoint (found : Findings) (p : Point) (s : State) :
    Step Findings := do
  if s.isBottom then return found
  let function ← graph.functionOf p.node
  (graph.edgesFrom p.node).foldlM
    (fun found (id, e) => replayEdge graph settings function p s found id e) found

def replay (states : SortedMap Point State) : Step Findings :=
  states.entries.foldlM (fun found (p, s) => replayPoint graph settings found p s) {}

/-- The outcome of the checks of a program.  A check that no context reaches holds. -/
def checkResults (found : Findings) : Except Fault (List CheckResult) :=
  graph.checks.mapM fun (id, node, c) => do
    let verdict := found.checks.get? id
    return {
      id
      node
      location := (← graph.node node).location
      condition := c.text
      verdict := verdict.getD .proven
      reachable := verdict.isSome }

/-- The outcome of the mutex operation of an edge. -/
def lockCheck? (id : Nat) (verdict : Verdict) : Option LockCheck :=
  match (graph.edges[id]?).map Edge.action with
  | some (.lock m) => some ⟨id, m, .lock, verdict⟩
  | some (.unlock m) => some ⟨id, m, .unlock, verdict⟩
  | _ => none

/-- The warning about a mutex operation that may be a misuse. -/
def lockWarning? (c : LockCheck) : Option Warning :=
  if c.verdict = .proven then none
  else
    let definite := c.verdict == .refuted
    match c.op with
    | .lock => some (.doubleLock c.mutex c.edge definite)
    | .unlock => some (.unlockNotHeld c.mutex c.edge definite)

/-- Decide all checks and mutex operations of a solved program and find its races. -/
def ofSolution (solution : Solution) : Except Fault Report :=
  match (replay graph settings solution.states).run ({ solution } : Replay) with
  | .error f _ => .error f
  | .ok found r => do
    let locks := found.locks.entries.filterMap fun (id, v) => lockCheck? graph id v
    return {
      checks := ← checkResults graph found
      locks
      warnings := locks.filterMap lockWarning? ++ r.accesses.races }

end Report
end StaticAnalysis
