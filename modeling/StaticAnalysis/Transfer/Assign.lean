import StaticAnalysis.Transfer.Eval

/-!
# Assignment

Storing values through designators.  A store is strong, replacing the old value, if the designator
denotes one cell that stands for one object; otherwise the new value is joined with the old one.  A
store through a pointer to anywhere may change every cell.

Storing a pointer where other threads can see it hands them the cells behind it.
-/

namespace StaticAnalysis.State

variable (env : Env) (s : State) (lv : LValue)

/-- Tell the relations about a variable that changed otherwise than by an assignment to it. -/
def syncRelation (c : Cell) : Except Fault State := do
  match c.localVar? with
  | some (function, name) =>
    if function = env.function ∧ s.tracked env name then
      let interval := (s.get c).toInt.interval
      return { s with relation := ← (s.relation.forget name).setBounds name interval }
    else return s
  | none => return s

/-- The old value joined to a new one unless the store is strong. -/
def weaken (strong : Bool) (v old : Value) : Except Fault Value :=
  if strong then .ok v else v.join old

/-- Hand the cells behind a value to other threads. -/
def escapeValue (v : Value) : Except Fault State := do
  match ← v.pointees? with
  | some roots => return s.escape env.function ((← s.reachableCells roots).map (·.toList))
  | none => return s.escape env.function none

def setCell (c : Cell) (v : Value) (strong : Bool) : Step State := do
  if ofCaller env c then
    recordEffect env (.ofWrite c v)
    return s
  let shared := c.isGlobal || c.isHeap || s.isEscaped c
  let s ← if s.multithreaded && shared then liftM (s.escapeValue env v) else pure s
  if s.multithreaded && c.isGlobal then
    let v ← if strong then pure v else v.join (← s.current env c)
    s.writeGlobal env c v
  else if c.isGlobal then s.set c (← weaken strong v (s.get c))
  else if s.multithreaded && shared then return s
  else
    let s ← s.set c (← weaken strong v (s.get c))
    s.syncRelation env c

def loadArray (c : Cell) : Step ArrayVal := do
  match ← s.loadCell env c with
  | .array a => return a
  | _ => return .uniform (env.graph.arrayLength? c) .top

def store (places : List Place) (v : Value) : Step State :=
  let strong := match places with
    | [p] => p.cell.base.isUnique && !p.inner
    | _ => false
  places.foldlM (fun s p => do
    if p.isCell then s.setCell env p.cell v strong
    else
      let array ← s.loadArray env p.cell
      let written : ArrayVal ← array.write (p.index.getD .top) (if p.inner then .top else v)
        (env.settings.partitionArrays && strong)
      s.setCell env p.cell (.array written) strong) s

/-- A store through a pointer to anywhere may change every cell. -/
def havocAll : Step State := do
  let s ← s.cells.keys.foldlM (fun (s : State) c => (s.set c (s.get c).havoc : Except Fault State))
    s
  let s := { s with relation := .unconstrained env.settings.relation }
  if env.modular then recordEffect env .unknown
  if s.multithreaded then
    env.graph.globalCells.foldlM (fun s c => s.writeGlobal env c .top) s
  else return s

def storeLValue (v : Value) : Step State := do
  match ← s.resolve env lv with
  | some places => s.store env places v
  | none => s.havocAll env

def trackedVar? : LValue → Option String
  | .var v => if s.tracked env v then some v else none
  | _ => none

/-- Assign a value that is not the value of a linear expression. -/
def assignValue (v : Value) : Step State := do
  if ← v.isBottom then return s.stop
  match s.trackedVar? env lv with
  | some name =>
    let int := v.toInt
    let relation ← s.relation.assign name none int.interval
    { s with relation }.set (env.varCell name) (.int int)
  | none => s.storeLValue env lv v

def assignScalar (e : Expr) : Step State := do
  let v ← s.eval env e
  if ← v.isBottom then return s.stop
  match s.trackedVar? env lv with
  | some name =>
    let form ← (e.linear? (s.tracked env)).run
    let int := v.toInt
    let relation ← s.relation.assign name form int.interval
    let bounded ← int.meet (.ofInterval (relation.bounds name))
    { s with relation }.set (env.varCell name) (.int bounded)
  | none => s.storeLValue env lv v

/-- The right-hand side of an assignment for one field of a struct. -/
def fieldSource (e : Expr) (field : String) : Expr :=
  match e with
  | .read lv => .read (.field lv field)
  | _ => .unknown

/-- Assign field by field, to a given depth of nested structs. -/
def assignWithin (env : Env) : Nat → State → LValue → Expr → Step State
  | depth, s, lv, e =>
    match depth, env.lvalueType? lv with
    | depth + 1, some (.struct name) =>
      ((env.graph.fields? name).getD []).foldlM (fun s d =>
        assignWithin env depth s (.field lv d.name) (fieldSource e d.name)) s
    | _, _ => s.assignScalar env lv e

/-- The assignment `lv = e`.  A struct is assigned field by field. -/
def assign (e : Expr) : Step State :=
  assignWithin env env.graph.nesting s lv e

end StaticAnalysis.State
