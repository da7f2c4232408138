import StaticAnalysis.Revision.Delta
import StaticAnalysis.Solver.Iteration

/-!
# Solving an edited program

A run on an edited program starts from the solution of the version before.  The states of all nodes
that may depend on the edit are dropped and computed anew in the contexts known before; the other
states, the whole shared store and the record of who read what are taken over.  Shared values are
thus joined with those of the version before, never replaced.
-/

namespace StaticAnalysis.Solver

/-- The contexts in which each function of a program was met before. -/
def knownContexts (graph : Graph) (previous : Solution) : SortedMap String (SortedSet Context) :=
  previous.states.keys.foldl (fun m p =>
    match graph.nodes[p.node]? with
    | some n => m.insert n.function ((m.getD n.function .empty).insert p.context)
    | none => m) .empty

/-- The points of a node in the contexts of its function. -/
def pointsOf (graph : Graph) (contexts : SortedMap String (SortedSet Context)) (n : Nat) :
    List Point :=
  match graph.nodes[n]? with
  | some node => (contexts.getD node.function .empty).toList.map (⟨n, ·⟩)
  | none => []

/-- A solver that takes over a previous solution but for the affected nodes. -/
def resume (graph : Graph) (settings : Settings) (previous : Solution) (affected : SortedSet Nat) :
    Solver :=
  let contexts := knownContexts graph previous
  let s : Solver := { new graph settings with
    states := previous.states.filter fun p _ =>
      p.node < graph.nodes.size && !affected.contains p.node
    globals := previous.globals
    readers := previous.readers }
  s.enqueue (affected.toList.flatMap (pointsOf graph contexts))

/-- Solve a program whose nodes `changed` since `previous` was computed. -/
def resolve (graph : Graph) (settings : Settings) (previous : Solution) (changed : SortedSet Nat) :
    Except AnalysisError Solution := do
  let affected ← AnalysisError.ofFault (graph.forwardClosure changed)
  (resume graph settings previous affected).solve

end StaticAnalysis.Solver
