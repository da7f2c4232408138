import StaticAnalysis.Transfer.Edge

/-!
# The equations

The state of a point is the join of the state in which its function is entered, if the point is the
entry, and of the states after all edges that lead to it.  At the exit of a function that is
analysed without its callers, the returned value goes into the function's summary.

`evaluate` is the right-hand side of a point's equation as a step; a store that knows the states of
points runs it.
-/

namespace StaticAnalysis

/-- The state in which a point is entered from outside of its function. -/
def entryState (g : Graph) (function : String) (p : Point) : Step State := do
  if (g.function? function).any (·.entry == p.node) then
    match ← Shared.lookup (.entry function p.context) with
    | .state s => return s
    | _ => return .unreachable
  else return .unreachable

/-- The join of a state with the state after an edge into a point. -/
def joinEdge (g : Graph) (settings : Settings) (function : String) (p : Point) (acc : State)
    (id : Nat) (e : Edge) : Step State := do
  match ← Shared.stateAt ⟨e.src, p.context⟩ with
  | none => return acc
  | some before =>
    if before.isBottom then return acc
    acc.join (← transfer g settings function p.context id e before)

/-- The right-hand side of the equation of a point. -/
def evaluate (g : Graph) (settings : Settings) (p : Point) : Step State := do
  let function ← g.functionOf p.node
  let entry ← entryState g function p
  let s ← (g.edgesInto p.node).foldlM
    (fun acc (id, e) => joinEdge g settings function p acc id e) entry
  if p.context.isModular && (g.function? function).any (·.exit == p.node) && !s.isBottom then
    let ret := s.get (State.retCell function)
    Shared.contribute (.summary function) (.summary (.ofReturn ret))
  return s

end StaticAnalysis
