import StaticAnalysis.Shared.Key
import StaticAnalysis.Shared.Value
import StaticAnalysis.Solver.Point

/-!
# Access to the shared store

Transitions read and contribute to the shared store as they go.  A `Step` is such a computation as
a tree: each node asks the store for a shared value or for the state of a point, or hands it a
contribution, and the leaves are results and faults.  What a store does with a request is up to its
kind, given by an instance of `SharedStore`: a plain map joins contributions, the solver's store
also records who reads what, and a store that replays a finished analysis only collects accesses.

A step that faults leaves the contributions it had made.
-/

namespace StaticAnalysis

/-- A computation that may read and contribute to a shared store and may fault. -/
inductive Step (α : Type) where
  | done (a : α)
  | fault (f : Fault)
  /-- Go on with the value of a key; `bottom` if nothing was contributed. -/
  | lookup (key : GlobalKey) (next : GlobalValue → Step α)
  /-- Go on with the state of a point, if it has one. -/
  | stateAt (p : Point) (next : Option State → Step α)
  /-- Contribute a value to a key, and go on. -/
  | contribute (key : GlobalKey) (v : GlobalValue) (next : Step α)

namespace Step

variable {α β : Type}

def bind : Step α → (α → Step β) → Step β
  | .done a, f => f a
  | .fault e, _ => .fault e
  | .lookup key next, f => .lookup key fun v => (next v).bind f
  | .stateAt p next, f => .stateAt p fun s => (next s).bind f
  | .contribute key v next, f => .contribute key v (next.bind f)

instance : Monad Step where
  pure := .done
  bind := .bind

/-- The step of an operation that only can fault. -/
def ofExcept : Except Fault α → Step α
  | .ok a => .done a
  | .error f => .fault f

instance : MonadLift (Except Fault) Step := ⟨ofExcept⟩

end Step

/-- What a store does with the requests of a step. -/
class SharedStore (σ : Type) where
  lookup : GlobalKey → σ → GlobalValue × σ
  stateAt : Point → σ → Option State × σ
  contribute : GlobalKey → GlobalValue → σ → Except Fault σ

def Step.run {σ α : Type} [SharedStore σ] : Step α → σ → EStateM.Result Fault σ α
  | .done a, s => .ok a s
  | .fault f, s => .error f s
  | .lookup key next, s =>
    match SharedStore.lookup key s with
    | (v, s) => (next v).run s
  | .stateAt p next, s =>
    match SharedStore.stateAt p s with
    | (t, s) => (next t).run s
  | .contribute key v next, s =>
    match SharedStore.contribute key v s with
    | .ok s => next.run s
    | .error f => .error f s

namespace Shared

def lookup (key : GlobalKey) : Step GlobalValue := .lookup key .done

def stateAt (p : Point) : Step (Option State) := .stateAt p .done

def contribute (key : GlobalKey) (v : GlobalValue) : Step Unit := .contribute key v (.done ())

def publish (key : SharedKey) (v : GlobalValue) : Step Unit := contribute (.shared key) v

def value (key : SharedKey) : Step Value := do
  match ← lookup (.shared key) with
  | .value v => return v
  | _ => return .bottom

def writeLocks (c : Cell) : Step Protecting := do
  match ← lookup (.shared (.writeLocks c)) with
  | .protecting p => return p
  | _ => return .unwritten

/-- What was published at the unlocks of a mutex, by publisher. -/
def parts (mutex : String) (c : Cell) : Step (SortedMap Part Value) := do
  match ← lookup (.shared (.unlocked mutex c)) with
  | .parts p => return p
  | _ => return .empty

/-- The state in which a function leaves a context. -/
def exitState (g : Graph) (function : String) (context : Context) : Step State := do
  match g.function? function with
  | some f => return (← stateAt ⟨f.exit, context⟩).getD .unreachable
  | none => return .unreachable

end Shared

/-- A shared store as a plain map. -/
abbrev GlobalMap := SortedMap GlobalKey GlobalValue

namespace GlobalMap

def value (m : GlobalMap) (key : GlobalKey) : GlobalValue := m.getD key .bottom

def contribute (m : GlobalMap) (key : GlobalKey) (v : GlobalValue) : Except Fault GlobalMap := do
  match m.get? key with
  | some old => return m.insert key (← old.join v)
  | none => return m.insert key v

/-- In a plain map contributions are joined, and no point has a state. -/
instance : SharedStore GlobalMap where
  lookup key m := (m.value key, m)
  stateAt _ m := (none, m)
  contribute key v m := m.contribute key v

end GlobalMap
end StaticAnalysis
