import StaticAnalysis.Transfer.Call

/-!
# Starting threads

A thread is named by the edge that starts it.  It is unique if only the main thread starts it,
outside of loops, so that at most one such thread exists.  Starting a thread hands it the cells that
its argument points to, and with the first thread all that globals point to.
-/

namespace StaticAnalysis.State

def newThread (env : Env) (function : String) : Except Fault ThreadId := do
  let src := (← env.graph.edge env.edge).src
  let unique := env.thread = .main ∧ env.settings.entryPoints.contains env.function ∧
    !env.graph.inLoop src
  return .created env.thread env.edge function (decide unique)

/-- The cells that a new thread can reach, unless a pointer may point anywhere. -/
def spawnReach (s : State) (arg : Option Value) : Except Fault (Option (SortedSet Cell)) := do
  let passed ← match arg with
    | some v => v.pointees?
    | none => pure (some [])
  let shared ← if s.multithreaded then pure (some []) else s.sharedRoots
  match passed, shared with
  | some roots, some more => s.reachableCells (roots ++ more)
  | _, _ => return none

/-- Start a thread: the new thread, the state of its creator after the start, and the state in
which it starts. -/
def spawn (env : Env) (s : State) (function : String) (arg : Option Expr) :
    Step (ThreadId × State × State) := do
  let thread ← newThread env function
  let value ← match arg with
    | some e => some <$> s.eval env e
    | none => pure none
  let reach ← s.spawnReach value
  let s := s.escape env.function (reach.map (·.toList))
  let s ← if s.multithreaded then s.announcePending env else s.announceGlobals env
  let s := { s with created := s.created.insert thread }
  let start := { unknown env.settings.relation with multithreaded := true, escaped := s.escaped }
  match (env.graph.function? function).bind (·.params.head?), value with
  | some param, some v => return (thread, s, ← start.set (.ofLocal function param.name) v)
  | _, _ => return (thread, s, start)

/-- Wait for the threads that run a function: if there can be only one, it has ended. -/
def joinThread (s : State) (function : String) : State :=
  match s.created.toList.filter fun t => t.function? == some function && t.isUnique with
  | [t] => { s with joined := s.joined.insert t }
  | _ => s

end StaticAnalysis.State
