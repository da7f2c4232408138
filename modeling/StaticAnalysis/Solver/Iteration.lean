import StaticAnalysis.Solver.Tracking

/-!
# Iteration

The solver seeds the entry points, then ascends: it takes the least point of the worklist,
evaluates it, joins the result into the point's state, and enqueues whoever depends on a state that
grew.  Loop heads and function entries are widened once they changed more often than the delay.
When the worklist is empty the solution is stable.

A fixed number of descending rounds follows, in which every point is recomputed and loop heads and
function entries are narrowed.  Contributions to the shared store made meanwhile can leave points on
the worklist, and then the ascent goes on.

Every evaluation counts toward a ceiling, which bounds the recursion.
-/

namespace StaticAnalysis.Solver

/-- A solver for a program, before anything is known. -/
def new (graph : Graph) (settings : Settings) : Solver where
  graph
  settings
  recursive := graph.recursiveFunctions
  point := ⟨0, default⟩

/-! ## Seeds -/

/-- The functions that are entered from outside of the program, with context and state. -/
def seeds (graph : Graph) (settings : Settings) :
    Except Fault (List (String × Context × State)) := do
  let roots ← settings.entryPoints.mapM fun f =>
    return (f, settings.context.root .main f, ← State.initial graph settings)
  let modular ← (graph.functions.keys.filter settings.isModular).mapM fun f =>
    return (f, Context.modular, ← State.modularEntry graph settings f)
  return roots ++ modular

variable (s : Solver)

/-- Contribute the seeds and enqueue their entries. -/
def seed : Except Fault Solver := do
  (← seeds s.graph s.settings).foldlM (fun s (function, context, state) => do
    match s.graph.function? function with
    | none => return s
    | some f =>
      let p : Point := ⟨f.entry, context⟩
      let s ← { s with point := p }.contribute (.entry function context) (.state state)
      return s.enqueue [p]) s

/-! ## Evaluation -/

/-- Evaluate a point, unless the ceiling on evaluations is reached. -/
def evaluatePoint (p : Point) : Except AnalysisError (State × Solver) :=
  if s.settings.maxEvaluations ≤ s.evaluations then
    .error (.nonTermination s.settings.maxEvaluations)
  else
    match (evaluate s.graph s.settings p).run
        { s with point := p, evaluations := s.evaluations + 1 } with
    | .ok t s => .ok (t, s)
    | .error f _ => .error (.fault f)

/-! ## Ascent -/

def next? : Option (Point × Solver) :=
  match s.worklist.toList with
  | [] => none
  | p :: _ => some (p, { s with worklist := s.worklist.erase p })

/-- The points that depend on the state of a point. -/
def dependents (p : Point) : List Point :=
  (s.graph.successors p.node).map (⟨·, p.context⟩) ++ s.readers.ofState p

/-- Join a new value into the state of a point, and tell whether the state grew. -/
def raise (p : Point) (new : State) : Except Fault (Bool × Solver) := do
  match s.states.get? p with
  | none =>
    if new.isBottom then return (false, { s with states := s.states.insert p new })
    else grow s .unreachable
  | some old => if ← new.le old then return (false, s) else grow s old
where
  grow (s : Solver) (old : State) : Except Fault (Bool × Solver) := do
    let count := s.stateUpdates.getD p 0 + 1
    let joined ← old.join new
    let value ←
      if s.graph.isWideningPoint p.node && s.settings.wideningDelay < count then old.widen joined
      else pure joined
    let s := { s with
      states := s.states.insert p value
      stateUpdates := s.stateUpdates.insert p count }
    return (true, s.enqueue (s.dependents p))

/-- Evaluate points until the worklist is empty, and tell whether some state grew.  `fuel` is what
is left of the evaluations. -/
def ascendWith : Nat → Bool → Solver → Except AnalysisError (Bool × Solver)
  | fuel, changed, s =>
    match s.next? with
    | none => .ok (changed, s)
    | some (p, s) =>
      match fuel with
      | 0 => .error (.nonTermination s.settings.maxEvaluations)
      | fuel + 1 => do
        let (t, s) ← s.evaluatePoint p
        let (grew, s) ← AnalysisError.ofFault (s.raise p t)
        ascendWith fuel (changed || grew) s

def ascend : Except AnalysisError (Bool × Solver) :=
  ascendWith (s.settings.maxEvaluations - s.evaluations) false s

/-! ## Descent -/

def lower (p : Point) : Except AnalysisError Solver := do
  let (new, s) ← s.evaluatePoint p
  let value ←
    if s.graph.isWideningPoint p.node then
      AnalysisError.ofFault ((s.states.getD p .unreachable).narrow new)
    else pure new
  return { s with states := s.states.insert p value }

def lowerAll : Except AnalysisError Solver := s.states.keys.foldlM lower s

def descend : Nat → Solver → Except AnalysisError Solver
  | 0, s => .ok s
  | rounds + 1, s => do descend rounds (← s.lowerAll)

/-! ## Solving -/

def solution : Solution where
  states := s.states
  globals := s.globals
  readers := s.readers
  evaluations := s.evaluations

def solve : Except AnalysisError Solution := do
  let s ← AnalysisError.ofFault s.seed
  let (changed, s) ← s.ascend
  if !changed || s.settings.narrowingRounds = 0 then return s.solution
  let s ← descend s.settings.narrowingRounds { s with worklist := .empty }
  if s.worklist.isEmpty then return s.solution
  let (_, s) ← s.ascend
  return s.solution

end StaticAnalysis.Solver
