import StaticAnalysis.Shared.Store

/-!
# Solutions

What a solver run leaves: the state of every point it met, the shared store, who read what, and the
number of evaluations.
-/

namespace StaticAnalysis

/-- The points that read a state or a shared value when they were last evaluated or before. -/
structure Readers where
  states : SortedMap Point (SortedSet Point) := .empty
  globals : SortedMap GlobalKey (SortedSet Point) := .empty

namespace Readers

/-- Note that `reader` reads the state of a point. -/
def addState (r : Readers) (p reader : Point) : Readers :=
  { r with states := r.states.insert p ((r.states.getD p .empty).insert reader) }

def addGlobal (r : Readers) (k : GlobalKey) (reader : Point) : Readers :=
  { r with globals := r.globals.insert k ((r.globals.getD k .empty).insert reader) }

def ofState (r : Readers) (p : Point) : List Point := (r.states.getD p .empty).toList

def ofGlobal (r : Readers) (k : GlobalKey) : List Point := (r.globals.getD k .empty).toList

end Readers

structure Solution where
  states : SortedMap Point State
  globals : GlobalMap
  readers : Readers
  evaluations : Nat

namespace Solution

instance : Inhabited Solution := ⟨⟨.empty, .empty, {}, 0⟩⟩

variable (s : Solution)

/-- The state of a point; unreachable if it was never met. -/
def state (p : Point) : State := s.states.getD p .unreachable

/-- The contexts in which a node was met, with its states. -/
def contexts (node : Nat) : List (Context × State) :=
  s.states.entries.filterMap fun (p, t) => if p.node = node then some (p.context, t) else none

/-- The join of the states of a node over its contexts. -/
def stateAt (node : Nat) : Except Fault State :=
  (s.contexts node).foldlM (fun acc (_, t) => acc.join t) .unreachable

def isReachable (node : Nat) : Bool := (s.contexts node).any (!·.2.isBottom)

def summary? (function : String) : Option Summary :=
  match s.globals.value (.summary function) with
  | .summary t => some t
  | _ => none

/-- Every value that some thread may see in a global. -/
def published (s : Solution) (c : Cell) : Value :=
  match s.globals.value (.shared (.published c)) with
  | .value v => v
  | _ => .bottom

def threads : SortedSet ThreadId :=
  .ofList (s.globals.keys.filterMap fun k =>
    match k with
    | .entry _ c => if c.isModular then none else some c.thread
    | _ => none)

end Solution
end StaticAnalysis
