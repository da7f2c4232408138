import StaticAnalysis.Solver.Solution
import StaticAnalysis.Transfer.Call

/-!
# Invariants

What a solution says at loop heads and function entries, written as C conditions over the variables
in scope, for tools that check or use such conditions.
-/

namespace StaticAnalysis

inductive InvariantKind where
  | loopInvariant
  | precondition
deriving DecidableEq, Repr

def InvariantKind.rank : InvariantKind → Nat
  | .loopInvariant => 0
  | .precondition => 1

structure Invariant where
  kind : InvariantKind
  function : String
  node : Nat
  location : Option Location
  facts : List String
  /-- The conjunction of the facts, `1` if there are none. -/
  expression : String
deriving DecidableEq

/-- The invariants of a program. -/
structure InvariantExport where
  invariants : List Invariant
deriving DecidableEq

def InvariantExport.at? (e : InvariantExport) (node : Nat) : Option Invariant :=
  e.invariants.find? (·.node == node)

/-! ## Facts -/

/-- What is known about an integer.  The remainder of a negative number is negative in C, so a
residue is a fact only about numbers that are not. -/
def intFacts (c : Cell) (v : IntVal) : List String :=
  match v.constant? with
  | some n => [c.text ++ " == " ++ toString n]
  | none =>
    let low := (v.interval.low.toFinite?.map fun n => c.text ++ " >= " ++ toString n).toList
    let high := (v.interval.high.toFinite?.map fun n => c.text ++ " <= " ++ toString n).toList
    let residue := match v.congruence with
      | .residue r k =>
        if 1 < k && v.interval.low.toFinite?.any (decide <| 0 ≤ ·) then
          [c.text ++ " % " ++ toString k ++ " == " ++ toString (r % k)]
        else []
      | .bottom => []
    low ++ high ++ residue

def inScope (function : String) (c : Cell) : Bool :=
  c.isGlobal || (c.isLocalOf function && c.base.label != State.retName)

def cellFacts (c : Cell) (v : Value) : List String :=
  match v with
  | .int i => intFacts c i
  | .addr a => if a = .null then [c.text ++ " == 0"] else []
  | _ => []

/-- What a state knows about the globals and the locals of a function, in order. -/
def State.facts (s : State) (function : String) : Except Fault (List String) := do
  let cells := (s.cells.filter fun c _ => inScope function c).entries.flatMap fun (c, v) =>
    cellFacts c v
  let relations ← match s.relation with
    | .octagon _ | .polyhedra _ _ => s.relation.constraints
    | _ => pure []
  return (SortedSet.ofList (cells ++ relations)).toList

/-! ## Export -/

/-- The nodes that have an invariant: loop heads and function entries. -/
def invariantNodes (graph : Graph) : List (Nat × InvariantKind) :=
  let points := graph.loops.heads.toList.map (·, InvariantKind.loopInvariant) ++
    graph.functions.values.map (·.entry, InvariantKind.precondition)
  points.mergeSort fun (m, a) (n, b) => decide (m < n) || (m == n && decide (a.rank ≤ b.rank))

/-- The invariant of a node, unless no run reaches it. -/
def invariantOf? (graph : Graph) (solution : Solution) (node : Nat) (kind : InvariantKind) :
    Except Fault (Option Invariant) := do
  let s ← solution.stateAt node
  if s.isBottom then return none
  let n ← graph.node node
  let facts ← s.facts n.function
  return some {
    kind
    function := n.function
    node
    location := n.location
    facts
    expression := if facts.isEmpty then "1" else " && ".intercalate facts }

def InvariantExport.ofSolution (graph : Graph) (solution : Solution) :
    Except Fault InvariantExport := do
  let invariants ← (invariantNodes graph).filterMapM fun (n, kind) =>
    invariantOf? graph solution n kind
  return ⟨invariants⟩

end StaticAnalysis
