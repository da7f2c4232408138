import StaticAnalysis.Program.Graph

/-!
# Differences between two versions of a program

Nodes of two versions are the same if they have the same number; unchanged code keeps its numbers.
A node has changed if it is new, belongs to another function, or is reached by other edges.  The
entry of a function has changed if its declaration has, and a change of the global declarations
changes the entries of all functions that nobody calls.

`forwardClosure` adds every node whose state may depend on a changed one.
-/

namespace StaticAnalysis.Graph

variable (g : Graph)

/-- The edges into a node as sources and actions, in an order that does not depend on their
numbers. -/
def incoming (n : Nat) : List (Nat × Action) :=
  let edges := (g.edgesInto n).map fun (_, e) => (e.src, e.action)
  edges.mergeSort fun (a, p) (b, q) =>
    (compareLex (compareOn Prod.fst) (compareOn Prod.snd) (a, p.text) (b, q.text)).isLE

/-- Whether a node of `new` differs from the node of that number in `old`. -/
def nodeChanged (old new : Graph) (n : Nat) : Bool :=
  match old.nodes[n]?, new.nodes[n]? with
  | some a, some b => a.function != b.function || old.incoming n != new.incoming n
  | _, _ => true

/-- The functions that are called or run by a thread. -/
def entered : List String :=
  g.edges.toList.filterMap fun e =>
    match e.action with
    | .call _ callee _ => some callee
    | .spawn f _ => some f
    | _ => none

/-- The entries of the functions whose declaration changed. -/
def changedEntries (old new : Graph) : List Nat :=
  new.functions.entries.filterMap fun (name, f) =>
    if old.function? name = some f then none else some f.entry

/-- The entries of the functions that are never called and never run by a thread. -/
def rootEntries : List Nat :=
  g.functions.values.filterMap fun f => if f.name ∈ g.entered then none else some f.entry

/-- The nodes of `new` that changed since `old`. -/
def changedNodes (old new : Graph) : SortedSet Nat :=
  let nodes := (List.range new.nodes.size).filter (nodeChanged old new)
  let roots :=
    if old.globals = new.globals ∧ old.structs = new.structs ∧ old.mutexes = new.mutexes then []
    else new.rootEntries
  .ofList (nodes ++ changedEntries old new ++ roots)

/-- The nodes to which a call of a function returns. -/
def returnSites (function : String) : List Nat :=
  g.edges.toList.filterMap fun e =>
    match e.action with
    | .call _ callee _ => if callee = function then some e.dst else none
    | _ => none

/-- The nodes whose state depends on the state after an edge: its end, and the entry of the function
that it calls or starts. -/
def influencedByEdge (e : Edge) : List Nat :=
  let entry : Option Nat := match e.action with
    | .call _ callee _ => (g.function? callee).map (·.entry)
    | .spawn f _ => (g.function? f).map (·.entry)
    | _ => none
  e.dst :: entry.toList

/-- The nodes whose state depends on the state of a node. -/
def influenced (n : Nat) : Except Fault (List Nat) := do
  let function ← g.functionOf n
  let ahead := (g.edgesFrom n).flatMap fun (_, e) => g.influencedByEdge e
  let returns :=
    if (g.function? function).any (·.exit == n) then g.returnSites function else []
  return ahead ++ returns

/-- All nodes whose state may depend on one of the given nodes. -/
def forwardClosure (nodes : SortedSet Nat) : Except Fault (SortedSet Nat) :=
  Closure.reach (List.range g.nodes.size) g.influenced (nodes.toList.filter (· < g.nodes.size))

end StaticAnalysis.Graph
