import StaticAnalysis.Arith.Fault
import StaticAnalysis.Order.Closure
import StaticAnalysis.Order.SortedMap
import StaticAnalysis.Program.Action
import StaticAnalysis.Program.Declaration

/-!
# Control-flow graphs

The program under analysis: program points of functions, connected by edges that carry actions,
and the declarations the actions refer to.  Points and edges are numbered by their position.

`Graph.finish` computes what the analysis needs to know about loops: a *loop head* is the target of
an edge that leads back onto the path of a depth-first walk, and a point is *cyclic* when it can
reach itself.
-/

namespace StaticAnalysis

/-- A source position. -/
structure Location where
  line : Nat
  column : Nat
deriving DecidableEq, Repr

def Location.text (l : Location) : String := toString l.line ++ ":" ++ toString l.column

/-- A program point. -/
structure Node where
  function : String
  location : Option Location
deriving DecidableEq, Repr

/-- A transition between two program points. -/
structure Edge where
  src : Nat
  dst : Nat
  action : Action
deriving DecidableEq

def nodeName (id : Nat) : String := "n" ++ toString id

def edgeName (id : Nat) : String := "e" ++ toString id

/-- A function: its variables, and the points where it starts and ends. -/
structure Function where
  name : String
  params : List VarDecl
  locals : List VarDecl
  entry : Nat
  exit : Nat
deriving DecidableEq

def Function.varType? (f : Function) (name : String) : Option Ty :=
  ((f.params ++ f.locals).find? (·.name == name)).map (·.ty)

/-- What is known about the loops of a graph. -/
structure LoopInfo where
  heads : SortedSet Nat
  entries : SortedSet Nat
  cyclic : SortedSet Nat
deriving DecidableEq

instance : Inhabited LoopInfo := ⟨⟨.empty, .empty, .empty⟩⟩

/-- A program as a control-flow graph. -/
structure Graph where
  nodes : Array Node := #[]
  edges : Array Edge := #[]
  functions : SortedMap String Function := .empty
  globals : SortedMap String GlobalDecl := .empty
  structs : SortedMap String (List VarDecl) := .empty
  mutexes : SortedMap String MutexKind := .empty
  loops : LoopInfo := default

namespace Graph

/-! ## Building -/

variable (g : Graph) (n : Nat)

/-- The graph with one more point; its number is the old number of points. -/
def addNode (function : String) (location : Option Location) : Graph :=
  { g with nodes := g.nodes.push ⟨function, location⟩ }

/-- The graph with one more edge between points that exist. -/
def pushEdge (src dst : Nat) (action : Action) : Graph :=
  { g with edges := g.edges.push ⟨src, dst, action⟩ }

def missingNode : Fault := .outOfBounds g.nodes.size n

/-- The graph with one more edge; both its points must exist. -/
def addEdge (src dst : Nat) (action : Action) : Except Fault Graph :=
  if g.nodes.size ≤ src then .error (g.missingNode src)
  else if g.nodes.size ≤ dst then .error (g.missingNode dst)
  else .ok (g.pushEdge src dst action)

/-! ## Looking up -/

def node (g : Graph) (n : Nat) : Except Fault Node :=
  match g.nodes[n]? with
  | some node => .ok node
  | none => .error (g.missingNode n)

def functionOf : Except Fault String := return (← g.node n).function

def edge (g : Graph) (e : Nat) : Except Fault Edge :=
  match g.edges[e]? with
  | some edge => .ok edge
  | none => .error (.outOfBounds g.edges.size e)

def numberedEdges : List (Nat × Edge) := g.edges.toList.zipIdx.map fun (e, i) => (i, e)

/-- The edges that lead to point `n`, in order. -/
def edgesInto : List (Nat × Edge) := g.numberedEdges.filter (·.2.dst == n)

def edgesFrom : List (Nat × Edge) := g.numberedEdges.filter (·.2.src == n)

/-- The points one edge away from `n`, in the order of the edges. -/
def successors : List Nat := (g.edgesFrom n).map (·.2.dst)

def function? (name : String) : Option Function := g.functions.get? name

def isGlobal (name : String) : Bool := g.globals.contains name

def mutexKind (name : String) : MutexKind := g.mutexes.getD name default

/-- The checks of the program, each with the point it starts from. -/
def checks : List (Nat × Nat × Cond) :=
  g.edges.toList.filterMap fun e =>
    match e.action with
    | .check id c => some (id, e.src, c)
    | _ => none

/-! ## Loops -/

/-- Where ascending iteration is forced to converge: loop heads and function entries. -/
def isWideningPoint : Bool :=
  g.loops.heads.contains n || g.loops.entries.contains n

def inLoop : Bool := g.loops.cyclic.contains n

/-- The points met and the loop heads found by a depth-first walk. -/
structure Walk where
  visited : SortedSet Nat
  heads : SortedSet Nat

/-- Walk depth-first from point `n`, which is reached along `path`.  A successor on the path is a
loop head; a successor not met before is walked next.  The points of a path differ, so a path is
never longer than the number of points. -/
def walkFrom (next : Nat → List Nat) : Nat → List Nat → Nat → Walk → Walk
  | 0, _, _, w => w
  | fuel + 1, path, n, w =>
    (next n).foldl
      (fun w m =>
        if (n :: path).contains m then { w with heads := w.heads.insert m }
        else if w.visited.contains m then w
        else walkFrom next fuel (n :: path) m w)
      { w with visited := w.visited.insert n }

/-- The loop heads met by walking from each entry in turn. -/
def findHeads (entries : List Nat) : SortedSet Nat :=
  let out := (List.range g.nodes.size).toArray.map g.successors
  let next (n : Nat) : List Nat := out.getD n []
  let start : Walk := ⟨.empty, .empty⟩
  (entries.foldl
    (fun w n => if w.visited.contains n then w else walkFrom next g.nodes.size [] n w) start).heads

def findCyclic : SortedSet Nat :=
  let points := List.range g.nodes.size
  let out := points.toArray.map g.successors
  let next (n : Nat) : List Nat := out.getD n []
  SortedSet.ofList (points.filter fun n => Closure.reaches points next (next n) n)

/-- Complete a graph with what is known about its loops.  Every function must start at a point of
the graph. -/
def finish : Except Fault Graph :=
  let entries := SortedSet.ofList (g.functions.values.map (·.entry))
  match entries.toList.find? (g.nodes.size ≤ ·) with
  | some n => .error (g.missingNode n)
  | none => .ok { g with loops := ⟨g.findHeads entries.toList, entries, g.findCyclic⟩ }

/-- The graph over the declarations of `base` with the given points, edges and functions; without
`finished` nothing is known about its loops. -/
def ofParts (base : Graph) (nodes : List Node) (edges : List Edge) (functions : List Function)
    (finished : Bool) : Except Fault Graph := do
  let g := nodes.foldl (fun g n => g.addNode n.function n.location) base
  let g ← edges.foldlM (fun g e => g.addEdge e.src e.dst e.action) g
  let g := { g with functions := .ofList (functions.map fun f => (f.name, f)) }
  if finished then g.finish else return g

end Graph
end StaticAnalysis
