import StaticAnalysis.State.Initial
import StaticAnalysis.Transfer.Thread

/-!
# Transitions

What the action of an edge does to a state.  `step` covers the actions within a function; `transfer`
adds calls and the start of threads, which contribute the entry states of functions to the shared
store.
-/

namespace StaticAnalysis
namespace State

/-- The state after an action, before it is asked whether the relations are still possible. -/
def act (env : Env) (s : State) (a : Action) : Step State := do
  match a with
  | .skip | .call _ _ _ | .spawn _ _ | .ret none => return s
  | .assign lv e => s.assign env lv e
  | .guard c => guard env true c s
  | .check _ c =>
    -- The condition is not assumed, but what it reads is noted.
    let _ ← s.evalCond env c
    return s
  | .ret (some e) => s.set (retCell env.function) (← s.eval env e)
  | .lock m =>
    let s := { s with locks := ← s.locks.lock m (env.graph.mutexKind m) }
    if s.multithreaded then s.acquire env m else return s
  | .unlock m =>
    let s := { s with locks := s.locks.unlock m (env.graph.mutexKind m) }
    if s.multithreaded then s.release env m else return s
  | .join function => return s.joinThread function
  | .havoc lv =>
    s.storeLValue env lv (if (env.lvalueType? lv).any Ty.isPointer then .addr .any else .top)
  | .alloc lv => s.assignValue env lv (.addr (.cell (.ofHeap env.edge)))

/-- The state after an action other than a call or the start of a thread. -/
def step (env : Env) (s : State) (a : Action) : Step State := do
  if !s.reachable then return s
  let next ← s.act env a
  return { next with reachable := next.reachable && !next.relation.isBottom }

end State

/-- Whether a call from a context goes through the summary of the callee. -/
def Settings.isModularCall (settings : Settings) (context : Context) (callee : String) : Bool :=
  context.isModular || settings.isModular callee

/-- A call through the callee's summary.  The callee is also entered without its callers, so that
the summary gets computed. -/
def transferModular (env : Env) (s : State) (target : Option LValue) (callee : String)
    (args : List Expr) : Step State := do
  let entry ← State.modularEntry env.graph env.settings callee
  Shared.contribute (.entry callee .modular) (.state entry)
  let summary ← Shared.lookup (.summary callee)
  s.applySummary env callee (match summary with | .summary t => t | _ => .bottom) args target

/-- A call that enters the callee in a context of its own. -/
def transferCall (env : Env) (context : Context) (s : State) (target : Option LValue)
    (callee : String) (args : List Expr) : Step State := do
  let inner ← env.settings.context.callee context env.edge env.function callee
  let (entry, reach) ← s.enter env callee args
  if entry.isBottom then return .unreachable
  Shared.contribute (.entry callee inner) (.state entry)
  let exit ← Shared.exitState env.graph callee inner
  s.combine env callee exit reach target

def transferSpawn (env : Env) (s : State) (function : String) (arg : Option Expr) :
    Step State := do
  let (thread, s, start) ← s.spawn env function arg
  Shared.contribute (.entry function (env.settings.context.root thread function)) (.state start)
  return s

/-- The state after an edge of a function in a context. -/
def transfer (graph : Graph) (settings : Settings) (function : String) (context : Context)
    (id : Nat) (e : Edge) (s : State) : Step State := do
  if !s.reachable then return .unreachable
  let env : Env := {
    graph
    settings
    function
    thread := context.thread
    edge := id
    modular := context.isModular }
  match e.action with
  | .call target callee args =>
    if settings.isModularCall context callee then transferModular env s target callee args
    else transferCall env context s target callee args
  | .spawn f arg => transferSpawn env s f arg
  | a => s.step env a

end StaticAnalysis
