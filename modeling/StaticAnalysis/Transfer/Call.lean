import StaticAnalysis.Transfer.Guard

/-!
# Calls

A call enters the callee with the cells it can reach, and combines the caller's state with the
state in which the callee returns.  Locals of the caller that the callee cannot reach are hidden
from it and come back unchanged.  A function that is analysed without its callers is not entered:
its summary is applied, with the objects of the parameters replaced by what the caller passes.
-/

namespace StaticAnalysis.State

/-- The name of the local that holds the value a function returns. -/
def retName : String := "#ret"

/-- The cell that holds the value a function returns. -/
def retCell (function : String) : Cell := .ofLocal function retName

variable (env : Env) (reach : Option (SortedSet Cell)) (s : State) (callee : String)

def evalArgs (args : List Expr) : Step (List Value) :=
  args.mapM (s.eval env)

/-! ## Entering -/

/-- The cells that a callee can reach through its arguments, globals and heap objects, unless a
pointer may point anywhere. -/
def callReach (values : List Value) : Except Fault (Option (SortedSet Cell)) := do
  let passed ← values.mapM Value.pointees?
  let shared ← s.sharedRoots
  match (passed ++ [shared]).mapM id with
  | some roots => s.reachableCells roots.flatten
  | none => return none

/-- Whether a callee may see a cell of its caller. -/
def visible (c : Cell) : Bool :=
  !c.isLocal || reach.all (·.contains c)

def bindParam (entry : State) (param : VarDecl)
    (arg : Option (Expr × Value)) : Step State := do
  let base := Cell.ofLocal callee param.name
  match param.ty, arg with
  | .struct _, some (.read lv, _) =>
    (env.graph.scalarPaths param.ty).foldlM (fun entry path => do
      let v ← s.readLValue env (path.foldl .field lv)
      entry.set (base.fields path) v) entry
  | _, some (_, .int i) => entry.set base (.int (← i.restrict (env.settings.domainsFor callee)))
  | _, some (_, v) => entry.set base v
  | _, none => entry.set base .top

/-- A name that no program variable has, for a parameter while it is bound. -/
def freshName (param : String) : String := "#" ++ param

def isFresh (name : String) : Bool := name.toList.head? == some '#'

/-- The relations between the parameters of a callee that follow from those between the caller's
variables: bind each integer parameter under a fresh name, drop the caller's variables, and
rename. -/
def enterRelation (params : List VarDecl) (args : List Expr) :
    Step Relation := do
  let bound := (params.zip args).filter (·.1.ty == .int)
  let r ← bound.foldlM (fun (r : Relation) (param, arg) => do
    let form ← (arg.linear? (s.tracked env)).run
    let value := (← s.eval env arg).toInt.interval
    (r.assign (freshName param.name) form value : Except Fault Relation)) s.relation
  let r := r.project isFresh
  let r ← bound.foldlM (fun (r : Relation) (param, _) =>
    let fresh := freshName param.name
    (r.assign param.name (some (.var fresh)) (r.bounds fresh) : Except Fault Relation)) r
  return r.project (!isFresh ·)

/-- The state in which a call enters the callee, and the cells of the caller that the callee may
reach. -/
def enter (args : List Expr) :
    Step (State × Option (SortedSet Cell)) := do
  match env.graph.function? callee with
  | none => return (unreachable, none)
  | some function =>
    let values ← s.evalArgs env args
    let reach ← s.callReach values
    let entry := { s with cells := s.cells.filter fun c _ => visible reach c }
    let bound := args.zip values
    let entry ← function.params.zipIdx.foldlM (fun entry (param, i) =>
      s.bindParam env callee entry param bound[i]?) entry
    let relation ←
      if env.settings.relation = .none then pure Relation.none
      else s.enterRelation env function.params args
    return ({ entry with relation }, reach)

/-! ## Returning -/

/-- What the relations know about a variable that the callee may have changed. -/
def resyncRelation : Except Fault State :=
  s.relation.vars.foldlM (fun (s : State) name => do
    let c := env.varCell name
    if reach.all (·.contains c) then
      let interval := (s.get c).toInt.interval
      return { s with relation := ← (s.relation.forget name).setBounds name interval }
    else return s) s

/-- The state after a call, from the caller's state before it and the state in which the callee
returns. -/
def combine (exit : State)
    (reach : Option (SortedSet Cell)) (target : Option LValue) : Step State := do
  if !s.reachable || !exit.reachable then return unreachable
  let hidden := s.cells.filter fun c _ => !visible reach c
  let kept := exit.cells.filter fun c _ => !c.isLocalOf callee
  let cells := hidden.entries.foldl (fun m (c, v) => m.insert c v) kept
  let s ← { exit with relation := s.relation, cells }.resyncRelation env reach
  match target with
  | some lv => s.assignValue env lv (exit.get (retCell callee))
  | none => return s

/-! ## Summaries -/

/-- The value that a caller passes for a parameter. -/
def argOf (params : List String) (values : List Value) (param : String) : Option Value :=
  (params.idxOf? param).bind (values[·]?)

/-- Replace the objects of a callee's parameters by what the caller passes for them. -/
def instantiate (arg : String → Option Value) (v : Value) : Value :=
  match v with
  | .addr (.of targets) =>
    .addr (targets.toList.foldl (fun a t =>
      match t with
      | some ⟨.opaqueParam function param, path⟩ =>
        if function = callee then
          let passed := (arg param).elim .any Value.toAddr
          a.join (path.foldl AddrSet.field passed)
        else a.join (.of (.singleton t))
      | t => a.join (.of (.singleton t))) .bottom)
  | v => v

def applyWrite (arg : String → Option Value) (s : State) (c : Cell)
    (v : Value) : Step State := do
  let v := instantiate callee arg v
  match c.base with
  | .globalVar _ => s.setCell env c v false
  | .opaqueParam function param =>
    if function ≠ callee then return s
    match (arg param).bind (·.toAddr.cells?) with
    | some targets => targets.foldlM (fun s t => s.setCell env (t.fields c.path) v false) s
    | none => s.havocAll env
  | _ => return s

/-- The effects of a function that may do anything: globals and all cells behind the arguments
change. -/
def applyUnknown (values : List Value) : Step State := do
  let s ← env.graph.globalCells.foldlM (fun s c => s.setCell env c .top false) s
  let reach ← match ← pointeesOf values with
    | some roots => liftM (s.reachableCells roots)
    | none => pure none
  match reach with
  | some cells => cells.toList.foldlM (fun s c => s.setCell env c .top false) s
  | none => s.havocAll env

/-- The state after a call of a function that is analysed without its callers. -/
def applySummary (summary : Summary) (args : List Expr)
    (target : Option LValue) : Step State := do
  if !s.reachable || !(summary.returns || summary.anything) then return unreachable
  let values ← s.evalArgs env args
  let params := ((env.graph.function? callee).elim [] (·.params)).map (·.name)
  let arg := argOf params values
  let s ←
    if summary.anything then s.applyUnknown env values
    else do
      if env.modular then
        (summary.reads.toList.filter Cell.isGlobal).forM fun c => recordEffect env (.ofRead c)
      summary.writes.entries.foldlM (fun s (c, v) => applyWrite env callee arg s c v) s
  match target with
  | some lv =>
    s.assignValue env lv (if summary.anything then .top else instantiate callee arg summary.ret)
  | none => return s

end StaticAnalysis.State
