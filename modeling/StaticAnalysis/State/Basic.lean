import StaticAnalysis.Memory.Value
import StaticAnalysis.Relation.Relation
import StaticAnalysis.Thread.LockSet
import StaticAnalysis.Thread.ThreadId

/-!
# Abstract states

What the analysis knows at a point of the program: a value for each cell of memory (a cell that is
not listed may hold anything), relations between the integer locals of the current function, and
what concerns threads — held mutexes, created and joined threads, private copies of globals and
locals whose address another thread may have.
-/

namespace StaticAnalysis

/-- A thread's own copy of a global, held while a protecting mutex is held. -/
structure PrivateCopy where
  value : Value
  /-- Every path to this point has the copy; otherwise a read also sees what is published. -/
  exact : Bool
deriving DecidableEq

/-- A mutex together with a cell that was published at its unlock. -/
structure KeptKey where
  mutex : String
  cell : Cell
deriving DecidableEq

namespace KeptKey

instance : Ord KeptKey where
  compare := compareLex (compareOn mutex) (compareOn cell)

instance : Std.TransOrd KeptKey :=
  inferInstanceAs (Std.TransCmp (compareLex (compareOn mutex) (compareOn cell)))

instance : Std.LawfulEqOrd KeptKey :=
  Order.Reads.lawful (.lex .on .on) fun a b h => by cases a; cases b; simp_all

end KeptKey

structure State where
  reachable : Bool
  /-- The values of cells; a cell that is not listed may hold anything. -/
  cells : SortedMap Cell Value
  /-- Relations between the integer locals of the current function. -/
  relation : Relation
  locks : LockSet
  /-- Other threads may be running. -/
  multithreaded : Bool
  /-- The threads that this thread may have created. -/
  created : SortedSet ThreadId
  /-- The unique threads that this thread has joined. -/
  joined : SortedSet ThreadId
  copies : SortedMap Cell PrivateCopy
  /-- The last value that this thread, a unique one, published at the unlock of a mutex. -/
  kept : SortedMap KeptKey Value
  /-- Cells whose address was handed to another thread. -/
  escaped : SortedSet Cell
deriving DecidableEq

namespace State

/-- A reachable state that knows nothing about memory. -/
def unknown (kind : RelationKind) : State where
  reachable := true
  cells := .empty
  relation := .unconstrained kind
  locks := .empty
  multithreaded := false
  created := .empty
  joined := .empty
  copies := .empty
  kept := .empty
  escaped := .empty

def unreachable : State := { unknown .none with reachable := false }

/-- No knowledge at all, not even that the thread is alone. -/
def top : State := { unknown .none with multithreaded := true }

variable (s : State)

def stop : State := { s with reachable := false }

def get (c : Cell) : Value := s.cells.getD c .top

/-- The state with a new value for a cell.  An unknown value is not listed, unless it is an array
or the cell is global. -/
def set (c : Cell) (v : Value) : Except Fault State := do
  let drop := (← v.isTop) && !v.isArray && !c.isGlobal
  return { s with cells := if drop then s.cells.erase c else s.cells.insert c v }

/-- Whether the address of a cell was handed to another thread. -/
def isEscaped (c : Cell) : Bool := s.escaped.toList.any c.isWithin

/-! ## Cells behind pointers -/

/-- The stored cells of an object and the cells that their values point to; `none` stands for a
pointer to anywhere. -/
def reachedFrom (c : Cell) : Except (Option Fault) (List Cell) := do
  let within := s.cells.entries.filter fun (d, _) => d.isWithin c
  let next ← within.mapM fun (d, v) =>
    match v.pointees? with
    | .ok (some cells) => .ok (d :: cells)
    | .ok none => .error none
    | .error f => .error (some f)
  return next.flatten

/-- The cells reachable from `roots` through stored pointers.  A pointer to anywhere makes all cells
reachable, and there is no result. -/
def reachableCells (roots : List Cell) : Except Fault (Option (SortedSet Cell)) :=
  let stored := s.cells.entries.flatMap fun (c, v) =>
    match v.pointees? with
    | .ok (some cells) => c :: cells
    | _ => [c]
  match Closure.reach (roots ++ stored) s.reachedFrom roots with
  | .ok cells => .ok (some cells)
  | .error none => .ok none
  | .error (some f) => .error f

/-- The cells that a list of values points to, unless one of them is a pointer to anywhere. -/
def pointeesOf : List Value → Except Fault (Option (List Cell))
  | [] => .ok (some [])
  | v :: vs => do
    match ← v.pointees? with
    | none => return none
    | some cells => return (← pointeesOf vs).map (cells ++ ·)

/-- The cells that globals and heap objects point to. -/
def sharedRoots : Except Fault (Option (List Cell)) :=
  pointeesOf ((s.cells.filter fun c _ => c.isGlobal || c.isHeap).values)

/-- Hand the addresses of cells to other threads; without a list, of every cell that is not shared
already.  Nothing is known any more about relations with such cells. -/
def escape (function : String) (cells : Option (List Cell)) : State :=
  let cells := cells.getD (s.cells.keys.filter fun c => !c.isGlobal && !c.isHeap)
  cells.foldl (fun s c =>
    let s := match c.localVar? with
      | some (f, name) =>
        if f = function then { s with relation := s.relation.forget name } else s
      | none => s
    if c.isGlobal || c.isHeap then s else { s with escaped := s.escaped.insert c }) s

/-! ## Text -/

def text (s : State) : Except Fault String := do
  if !s.reachable then return "⊥"
  let cells := s.cells.entries.map fun (c, v) => c.text ++ " = " ++ v.text
  let relations ← s.relation.constraints
  let copies := s.copies.entries.map fun (c, p) =>
    c.text ++ " ↦ " ++ p.value.text ++ (if p.exact then "" else " (weak)")
  let locks := if s.locks.isEmpty then [] else [s.locks.text]
  let threads := if s.multithreaded then ["multi-threaded"] else []
  return "\x7b" ++ "; ".intercalate (cells ++ relations ++ copies ++ locks ++ threads) ++ "\x7d"

end State
end StaticAnalysis
