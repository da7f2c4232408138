import StaticAnalysis.Solver.Evaluate
import StaticAnalysis.Solver.Solution

/-!
# The solver's store

The store in which points are evaluated while the solver runs.  It notes who reads what, and a
contribution that changes a shared value puts the readers of that value on the worklist.  A shared
value that changed more often than the widening delay is widened, and the summary of a recursive
function whose return value keeps changing gives up after a bound.
-/

namespace StaticAnalysis
namespace Graph

def callees (g : Graph) (function : String) : List String :=
  g.edges.toList.filterMap fun e =>
    match e.action with
    | .call _ callee _ =>
      if (g.nodes[e.src]?).any (·.function == function) then some callee else none
    | _ => none

def called (g : Graph) : List String :=
  g.edges.toList.filterMap fun e =>
    match e.action with
    | .call _ callee _ => some callee
    | _ => none

/-- Whether a function may call itself through a chain of calls. -/
def isRecursive (g : Graph) (function : String) : Bool :=
  Closure.reaches g.called g.callees (g.callees function) function

/-- The functions that may call themselves through a chain of calls. -/
def recursiveFunctions (g : Graph) : SortedSet String :=
  .ofList (g.functions.keys.filter g.isRecursive)

end Graph

/-- A solver run in progress. -/
structure Solver where
  graph : Graph
  settings : Settings
  recursive : SortedSet String
  states : SortedMap Point State := .empty
  globals : GlobalMap := .empty
  readers : Readers := {}
  worklist : SortedSet Point := .empty
  /-- How often a state changed.  This and the next two counters are unbounded; counters of 32 bits
  would overflow after `2 ^ 32` changes of one state, one shared value or one function. -/
  stateUpdates : SortedMap Point Nat := .empty
  /-- How often a shared value changed. -/
  globalUpdates : SortedMap GlobalKey Nat := .empty
  /-- How often what a recursive function returns changed. -/
  unrolled : SortedMap String Nat := .empty
  evaluations : Nat := 0
  /-- The point that is being evaluated. -/
  point : Point

namespace Solver

variable (s : Solver)

def enqueue (points : List Point) : Solver :=
  { s with worklist := s.worklist.insertMany points }

/-- Whether a contribution changed what a summary says about returning. -/
def returnsChanged : GlobalValue → GlobalValue → Bool
  | .summary before, .summary after => before.ret != after.ret || before.returns != after.returns
  | _, .summary after => after.returns
  | _, _ => false

/-- Count a change of what a recursive function returns, and give its summary up if there were too
many. -/
def unroll (key : GlobalKey) (old new : GlobalValue) : Solver × GlobalValue :=
  match key with
  | .summary function =>
    if returnsChanged old new && s.recursive.contains function then
      let count := s.unrolled.getD function 0 + 1
      ({ s with unrolled := s.unrolled.insert function count },
        if s.settings.unrollBound < count then .summary .unknown else new)
    else (s, new)
  | _ => (s, new)

/-- The entry of the function whose entry state a key holds. -/
def entryPoint? : GlobalKey → Option Point
  | .entry function context => (s.graph.function? function).map fun f => ⟨f.entry, context⟩
  | _ => none

/-- Contribute a value to a key, and enqueue the points that depend on it. -/
def contribute (key : GlobalKey) (v : GlobalValue) : Except Fault Solver := do
  let old := s.globals.value key
  if ← v.le old then return s
  let count := s.globalUpdates.getD key 0 + 1
  let new ← if s.settings.wideningDelay < count then old.widen v else old.join v
  let s := { s with globalUpdates := s.globalUpdates.insert key count }
  let (s, new) := s.unroll key old new
  let s := { s with globals := s.globals.insert key new }
  return s.enqueue ((s.entryPoint? key).toList ++ s.readers.ofGlobal key)

def lookup (key : GlobalKey) : GlobalValue × Solver :=
  (s.globals.value key, { s with readers := s.readers.addGlobal key s.point })

def stateOf (p : Point) : Option State × Solver :=
  (s.states.get? p, { s with readers := s.readers.addState p s.point })

instance : SharedStore Solver where
  lookup key s := s.lookup key
  stateAt p s := s.stateOf p
  contribute key v s := s.contribute key v

end Solver
end StaticAnalysis
