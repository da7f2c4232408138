import StaticAnalysis.Call.Summary
import StaticAnalysis.State.Lattice
import StaticAnalysis.Thread.Access
import StaticAnalysis.Thread.Publication

/-!
# Values of the shared store

What is stored under the keys of the shared store.  Contributions to a key are joined, and widened
when a key changes too often; contributions to one key are always of one sort, and of two values of
different sorts the first is kept.
-/

namespace StaticAnalysis

inductive GlobalValue where
  | bottom
  | state (s : State)
  | value (v : Value)
  /-- Values by publisher. -/
  | parts (p : SortedMap Part Value)
  | protecting (p : Protecting)
  | accesses (a : SortedSet Access)
  | summary (s : Summary)
deriving DecidableEq

namespace GlobalValue

def isBottom : GlobalValue → Except Fault Bool
  | .bottom => pure true
  | .state s => pure s.isBottom
  | .value v => v.isBottom
  | .parts p => pure p.isEmpty
  | .protecting p => pure p.isBottom
  | .accesses a => pure a.isEmpty
  | .summary s => pure (s == .bottom)

def le : GlobalValue → GlobalValue → Except Fault Bool
  | .bottom, _ => pure true
  | a, .bottom => a.isBottom
  | .state s, .state t => s.le t
  | .value v, .value w => v.le w
  | .parts p, .parts q =>
    p.entries.allM fun (k, v) =>
      match q.get? k with
      | some w => v.le w
      | none => pure false
  | .protecting p, .protecting q => pure (p.le q)
  | .accesses a, .accesses b => pure (a.subset b)
  | .summary s, .summary t => s.le t
  | _, _ => pure false

def merge (states : State → State → Except Fault State) (values : Value → Value →
    Except Fault Value) (summaries : Summary → Summary → Except Fault Summary) :
    GlobalValue → GlobalValue → Except Fault GlobalValue
  | .bottom, b => pure b
  | a, .bottom => pure a
  | .state s, .state t => .state <$> states s t
  | .value v, .value w => .value <$> values v w
  | .parts p, .parts q => .parts <$> p.mergeM values q
  | .protecting p, .protecting q => pure (.protecting (p.join q))
  | .accesses a, .accesses b => pure (.accesses (a.union b))
  | .summary s, .summary t => .summary <$> summaries s t
  | a, _ => pure a

def join : GlobalValue → GlobalValue → Except Fault GlobalValue :=
  merge State.join Value.join Summary.join

def widen : GlobalValue → GlobalValue → Except Fault GlobalValue :=
  merge (fun s t => do s.widen (← s.join t)) (fun v w => do v.widen (← v.join w))
    (fun s t => do s.widen (← s.join t))

end GlobalValue
end StaticAnalysis
