import StaticAnalysis.Settings.Error

/-!
# Well-formed programs

Before an analysis starts the program is checked: edges connect existing nodes, called and spawned
functions are defined, and every function has its entry and exit among the nodes.
-/

namespace StaticAnalysis.Graph

def edgeMalformation? (g : Graph) (id : Nat) (e : Edge) : Option Malformation :=
  if g.nodes.size ≤ e.src ∨ g.nodes.size ≤ e.dst then some (.missingNode id)
  else
    match e.action with
    | .call _ callee _ => if g.functions.contains callee then none else some (.undefinedCallee id callee)
    | .spawn f _ => if g.functions.contains f then none else some (.undefinedThread id f)
    | _ => none

def functionMalformation? (g : Graph) (f : Function) : Option Malformation :=
  if g.nodes.size ≤ f.entry ∨ g.nodes.size ≤ f.exit then some (.dangling f.name) else none

/-- The first thing that is wrong: edges in order, then functions by name. -/
def malformation? (g : Graph) : Option Malformation :=
  (g.numberedEdges.findSome? fun (id, e) => g.edgeMalformation? id e) <|>
    g.functions.values.findSome? g.functionMalformation?

def validate (g : Graph) : Except AnalysisError Unit :=
  match g.malformation? with
  | some m => .error (.malformed m)
  | none => .ok ()

end StaticAnalysis.Graph
