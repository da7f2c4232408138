import StaticAnalysis.State.Basic

/-!
# Order of states

A state is below another if it knows at least as much.  Components that every run agrees on (cells,
joined threads, held mutexes) shrink under joins, and components that collect what may have happened
(created threads, escaped cells) grow.  A private copy that only one side has becomes inexact.

The join, the widening and nothing else go through `merge`.  When a state with one thread meets a
state with several, the globals of the former become inexact private copies, since the latter holds
its globals in the shared store.
-/

namespace StaticAnalysis.State

def isBottom (s : State) : Bool := !s.reachable || s.relation.isBottom

def isTop (s : State) : Bool :=
  s.reachable && s.multithreaded && s.cells.isEmpty && s.copies.isEmpty && s.locks.isEmpty &&
    !s.relation.isEnabled

/-! ## Comparison -/

/-- Whether each listed value of `t` has a value below it in `s`. -/
def entriesLe {κ : Type} [Ord κ] (s t : SortedMap κ Value) : Except Fault Bool :=
  t.entries.allM fun (k, w) =>
    match s.get? k with
    | some v => v.le w
    | none => pure false

/-- Whether the copy of one cell is below another; no copy is below an inexact one. -/
def copyLe : Option PrivateCopy → Option PrivateCopy → Except Fault Bool
  | some p, some q => return (← p.value.le q.value) && (p.exact || !q.exact)
  | none, some q => return !q.exact
  | some _, none => return false
  | none, none => return true

def copiesLe (s t : SortedMap Cell PrivateCopy) : Except Fault Bool :=
  (s.keys ++ t.keys).allM fun c => copyLe (s.get? c) (t.get? c)

/-- All three groups of values are compared before the other components are looked at. -/
def le (s t : State) : Except Fault Bool := do
  if s.isBottom then return true
  if t.isBottom then return false
  let cells ← entriesLe s.cells t.cells
  let kept ← entriesLe s.kept t.kept
  let copies ← copiesLe s.copies t.copies
  return cells && kept && copies && s.relation.le t.relation && s.locks.le t.locks &&
    (!s.multithreaded || t.multithreaded) && s.created.subset t.created &&
    t.joined.subset s.joined && s.escaped.subset t.escaped

/-! ## Join and widening -/

/-- Combine the copies of two threads' states; a copy that one side lacks becomes inexact. -/
def mergeCopies (f : Value → Value → Except Fault Value) (s t : SortedMap Cell PrivateCopy) :
    Except Fault (SortedMap Cell PrivateCopy) := do
  let both ← s.filterMapM fun c p =>
    match t.get? c with
    | some q => return some ⟨← f p.value q.value, p.exact && q.exact⟩
    | none => return some ⟨p.value, false⟩
  let rest := t.entries.filter fun (c, _) => !s.contains c
  return rest.foldl (fun r (c, q) => r.insert c ⟨q.value, false⟩) both

/-- Combine the values of common keys; unknown values that are not arrays are dropped unless
`keepTop` asks for them. -/
def mergeValues {κ : Type} [Ord κ] (f : Value → Value → Except Fault Value) (keepTop : κ → Bool)
    (s t : SortedMap κ Value) : Except Fault (SortedMap κ Value) :=
  s.filterMapM fun k v =>
    match t.get? k with
    | some w => do
      let r ← f v w
      return if !(← r.isTop) || r.isArray || keepTop k then some r else none
    | none => return none

/-- The globals of a state with one thread as inexact copies. -/
def addGlobals (f : Value → Value → Except Fault Value) (single : State)
    (copies : SortedMap Cell PrivateCopy) : Except Fault (SortedMap Cell PrivateCopy) :=
  (single.cells.filter fun c _ => c.isGlobal).entries.foldlM (fun r (c, v) => do
    let old := (r.get? c).elim .bottom (·.value)
    return r.insert c ⟨← f old v, false⟩) copies

def merge (values : Value → Value → Except Fault Value) (relations : Relation → Relation → Relation)
    (s t : State) : Except Fault State := do
  if !s.reachable then return t
  if !t.reachable then return s
  let copies ← mergeCopies values s.copies t.copies
  let copies ←
    if s.multithreaded = t.multithreaded then pure copies
    else addGlobals values (if s.multithreaded then t else s) copies
  return {
    reachable := true
    cells := ← mergeValues values Cell.isGlobal s.cells t.cells
    relation := relations s.relation t.relation
    locks := s.locks.join t.locks
    multithreaded := s.multithreaded || t.multithreaded
    created := s.created.union t.created
    joined := s.joined.inter t.joined
    copies
    kept := ← mergeValues values (fun _ => false) s.kept t.kept
    escaped := s.escaped.union t.escaped }

def join (s t : State) : Except Fault State := merge Value.join Relation.join s t

def widen (s t : State) : Except Fault State := merge Value.widen Relation.widen s t

/-! ## Meet and narrowing -/

/-- Meet the values of cells; there is no result if one of them becomes impossible. -/
def meetCells (s t : State) : Except Fault (Option (SortedMap Cell Value)) :=
  t.cells.entries.foldlM (fun r (c, w) => do
    match r with
    | none => return none
    | some cells =>
      let v ← (s.get c).meet w
      return if ← v.isBottom then none else some (cells.insert c v)) (some s.cells)

/-- Meet the copies; an exact copy that one side lacks is impossible. -/
def meetCopies (s t : SortedMap Cell PrivateCopy) :
    Except Fault (Option (SortedMap Cell PrivateCopy)) :=
  (s.keys ++ t.keys).foldlM (fun r c => do
    match r with
    | none => return none
    | some copies =>
      match s.get? c, t.get? c with
      | some p, some q =>
        return some (copies.insert c ⟨← p.value.meet q.value, p.exact || q.exact⟩)
      | some p, none | none, some p => return if p.exact then none else some copies
      | none, none => return some copies) (some .empty)

def meet (s t : State) : Except Fault State := do
  if s.isBottom || t.isBottom then return unreachable
  let some locks := s.locks.meet t.locks | return unreachable
  let some cells ← meetCells s t | return unreachable
  let some copies ← meetCopies s.copies t.copies | return unreachable
  let kept ← s.kept.mergeM Value.meet t.kept
  let relation := s.relation.meet t.relation
  if relation.isBottom then return unreachable
  return {
    reachable := true
    cells
    relation
    locks
    multithreaded := s.multithreaded && t.multithreaded
    created := s.created.inter t.created
    joined := s.joined.union t.joined
    copies
    kept
    escaped := s.escaped.inter t.escaped }

/-- Narrow the cells and the relations; everything else is taken from the second state. -/
def narrow (s t : State) : Except Fault State := do
  if !s.reachable || !t.reachable then return t
  let r ← s.cells.entries.foldlM (fun (r : State) (c, v) => do
    let v ← match t.cells.get? c with
      | some w => v.narrow w
      | none => pure v
    r.set c v) t
  return { r with relation := s.relation.narrow t.relation }

instance : Domain State where
  bottom := unreachable
  top := top
  isBottom s := pure s.isBottom
  isTop s := pure s.isTop
  le := le
  join := join
  meet := meet
  widen := widen
  narrow := narrow

end StaticAnalysis.State
