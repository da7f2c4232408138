import StaticAnalysis.Program.Graph

/-!
# From statements to graphs

A structured program becomes a graph function by function.  A statement becomes one or more edges:
a conditional becomes a pair of guarded edges that meet again, and a loop gets a head that its body
returns to.  Every statement has a source line of its own, so that points can be reported by
location; blocks have none.
-/

namespace StaticAnalysis

/-- A function before it becomes part of a graph. -/
structure FunctionDef where
  name : String
  params : List VarDecl
  locals : List VarDecl
  body : Stmt

/-- A graph under construction, the last source line used and the number of checks so far. -/
structure Draft where
  graph : Graph
  line : Nat := 0
  checks : Nat := 0

namespace Draft

/-- A new point of `function` on the current line. -/
def point (function : String) : StateM Draft Nat := fun d =>
  (d.graph.nodes.size, { d with graph := d.graph.addNode function (some ⟨d.line, 1⟩) })

def connect (src dst : Nat) (a : Action) : StateM Draft Unit :=
  modify fun d => { d with graph := d.graph.pushEdge src dst a }

/-- A new edge to a new point, which is returned. -/
def step (function : String) (src : Nat) (a : Action) : StateM Draft Nat := do
  let dst ← point function
  connect src dst a
  return dst

def nextLine : StateM Draft Unit := modify fun d => { d with line := d.line + 1 }

def nextCheck : StateM Draft Nat := fun d => (d.checks, { d with checks := d.checks + 1 })

/-- Add statement `s` of `function`, which ends at `exit`, from point `start`.  The result is the
point after the statement. -/
def lower (function : String) (exit : Nat) : Stmt → Nat → StateM Draft Nat
  | .done, start => return start
  | .seq s t, start => do
    let middle ← lower function exit s start
    lower function exit t middle
  | .skip, start => do
    nextLine
    return start
  | .act a, start => do
    nextLine
    step function start a
  | .check c, start => do
    nextLine
    let id ← nextCheck
    step function start (.check id c)
  | .ret e, start => do
    nextLine
    connect start exit (.ret e)
    -- What follows a return starts at a point that nothing leads to.
    point function
  | .ite c s t, start => do
    nextLine
    let thenStart ← step function start (.guard c)
    let elseStart ← step function start (.guard c.negate)
    let thenEnd ← lower function exit s thenStart
    let elseEnd ← lower function exit t elseStart
    let after ← point function
    connect thenEnd after .skip
    connect elseEnd after .skip
    return after
  | .loop c body, start => do
    nextLine
    let head ← step function start .skip
    let bodyStart ← step function head (.guard c)
    let after ← step function head (.guard c.negate)
    let bodyEnd ← lower function exit body bodyStart
    connect bodyEnd head .skip
    return after

/-- Add a function.  Its end has no source position. -/
def addFunction (f : FunctionDef) : StateM Draft Unit := do
  nextLine
  let entry ← point f.name
  let exit := entry + 1
  modify fun d => { d with graph := d.graph.addNode f.name none }
  let last ← lower f.name exit f.body entry
  connect last exit .skip
  modify fun d =>
    { d with
      graph :=
        { d.graph with
          functions := d.graph.functions.insert f.name ⟨f.name, f.params, f.locals, entry, exit⟩ } }

end Draft

/-- The graph of a list of functions over the declarations of `base`. -/
def Graph.ofFunctions (base : Graph) (functions : List FunctionDef) : Except Fault Graph :=
  let ((), draft) := (functions.forM Draft.addFunction).run { graph := base }
  draft.graph.finish

end StaticAnalysis
