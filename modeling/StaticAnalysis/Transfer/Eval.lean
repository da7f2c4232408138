import StaticAnalysis.Transfer.Publishing

/-!
# Evaluation

The value of expressions and the truth of conditions in a state.  A designator is first resolved to
the places it may denote; there is no result if a pointer may point anywhere.  Reading a global of a
program with several threads goes through the shared store, and reading a global in a function that
is analysed without its callers is noted in the function's summary.

The integer value of an expression is restricted to the domains of the current function, and met
with what the relations say if the expression is linear.
-/

namespace StaticAnalysis

/-- A resolved designator: a cell, or an element of the array in it. -/
structure Place where
  cell : Cell
  index : Option Interval
  /-- A part of an element, which is not told apart. -/
  inner : Bool
deriving DecidableEq

namespace Place

def ofCell (c : Cell) : Place := ⟨c, none, false⟩

def isCell (p : Place) : Bool := p.index.isNone && !p.inner

def field (p : Place) (name : String) : Place :=
  if p.isCell then ofCell (p.cell.field name) else { p with inner := true }

def element (p : Place) (i : Interval) : Place :=
  if p.isCell then { p with index := some i } else { p with inner := true }

end Place

namespace State

variable (env : Env) (s : State)

/-- Whether the relations know about a variable: the integer locals of the current function whose
address no other thread has. -/
def tracked (name : String) : Bool :=
  env.settings.relation != .none && name.toList.head? != some '#' && env.isLocal name &&
    env.varType name == .int && !s.isEscaped (env.varCell name)

/-! ## Loading -/

/-- Note an effect in the summary of the current function. -/
def recordEffect (effect : Summary) : Step Unit :=
  Shared.contribute (.summary env.function) (.summary effect)

/-- Whether a cell belongs to the callers of a function that is analysed without them. -/
def ofCaller (c : Cell) : Bool := env.modular && (c.isGlobal || c.isOpaque)

def loadCell (c : Cell) : Step Value := do
  if ofCaller env c then
    recordEffect env (.ofRead c)
    return .top
  if s.multithreaded && c.isGlobal then s.readGlobal env c
  else if s.multithreaded && (c.isHeap || s.isEscaped c) then return .top
  else return s.get c

def load (p : Place) : Step Value := do
  if p.inner then return .top
  let v ← s.loadCell env p.cell
  match p.index, v with
  | none, v => return v
  | some i, .array a => Value.readArray a i
  | some _, .bottom => return .bottom
  | some _, _ => return .top

/-- The join of the values in some places; anything if the places are not known. -/
def loadPlaces : Option (List Place) → Step Value
  | none => return .top
  | some places => places.foldlM (fun v p => do v.join (← s.load env p)) .bottom

/-! ## Expressions and conditions -/

/-- The address of a resolved designator.  Elements of arrays have no address of their own. -/
def addressOf : Option (List Place) → Value
  | some places =>
    if places.all Place.isCell then .addr (.of (.ofList (places.map fun p => some p.cell)))
    else .addr .any
  | none => .addr .any

/-- The result of an operation on two values.  Pointer arithmetic is not modelled. -/
def arithmetic (op : ArithOp) (x y : Value) : Except Fault Value :=
  match op with
  | .add =>
    if x.isAddr || y.isAddr then .ok .top else return .int (← x.toInt.add y.toInt)
  | .sub => return .int (← x.toInt.sub y.toInt)
  | .mul => return .int (← x.toInt.mul y.toInt)
  | .div => return .int (← x.toInt.div y.toInt)
  | .mod => return .int (← x.toInt.rem y.toInt)

/-- Bring the value of an expression to the domains and relations in use. -/
def settle (e : Expr) (v : Value) : Except Fault Value := do
  match v with
  | .int i =>
    let i ← i.restrict env.domains
    if !s.relation.isEnabled then return .int i
    match ← (e.linear? (s.tracked env)).run with
    | some f =>
      if f.isConstant then return .int i
      else return .int (← i.meet (.ofInterval (s.relation.eval f)))
    | none => return .int i
  | v => return v

def equalTruth (x y : Value) : Except Fault Truth :=
  if x.isAddr || y.isAddr then .ok (x.toAddr.eqTruth y.toAddr) else x.toInt.eqTruth y.toInt

def compareTruth (op : CmpOp) (x y : Value) : Except Fault Truth :=
  match op with
  | .eq => equalTruth x y
  | .ne => return (← equalTruth x y).not
  | .lt => .ok (x.toInt.ltTruth y.toInt)
  | .le => .ok (x.toInt.leTruth y.toInt)
  | .gt => .ok (y.toInt.ltTruth x.toInt)
  | .ge => .ok (y.toInt.leTruth x.toInt)

/-- Decide a comparison by the relations if the values do not: it is true if its negation is
impossible. -/
def relationTruth (op : CmpOp) (a b : Expr) (t : Truth) :
    Except Fault Truth := do
  if t ≠ .unknown ∨ !s.relation.isEnabled then return t
  let pos ← (op.linear? (s.tracked env) a b).run
  let neg ← (op.negate.linear? (s.tracked env) a b).run
  match pos, neg with
  | some pos, some neg =>
    if (← s.relation.guard neg).isBottom then return .true
    else if (← s.relation.guard pos).isBottom then return .false
    else return .unknown
  | _, _ => return t

mutual

def eval (env : Env) (s : State) (e : Expr) : Step Value := do
  let v ← match e with
    | .const n => pure (.ofInt n)
    | .null => pure (.addr .null)
    | .unknown => pure (.int .top)
    | .unsupported _ => pure .top
    | .read lv => do s.loadPlaces env (← s.resolve env lv)
    | .addrOf lv => do pure (addressOf (← s.resolve env lv))
    | .arith op a b => do
      let x ← s.eval env a
      let y ← s.eval env b
      liftM (arithmetic op x y)
    | .neg a => do
      let x ← s.eval env a
      pure (.int (← liftM x.toInt.neg))
    | .truth c => do pure (.int (.ofTruth (← s.evalCond env c)))
  s.settle env e v

/-- The places that a designator may denote; `none` if a pointer may point anywhere. -/
def resolve (env : Env) (s : State) (lv : LValue) : Step (Option (List Place)) := do
  match lv with
  | .var v => return some [.ofCell (env.varCell v)]
  | .field base f => return (← s.resolve env base).map (·.map (·.field f))
  | .index base i =>
    let index := (← s.eval env i).toInt.interval
    return (← s.resolve env base).map (·.map (·.element index))
  | .deref p => return (← s.eval env p).toAddr.cells?.map (·.map .ofCell)

/-- The truth of a condition.  Of a comparison with `>` or `>=` the right side is evaluated
first. -/
def evalCond (env : Env) (s : State) (c : Cond) : Step Truth := do
  match c with
  | .always => return .true
  | .never => return .false
  | .not c => return (← s.evalCond env c).not
  | .and p q =>
    let t ← s.evalCond env p
    return t.and (← s.evalCond env q)
  | .or p q =>
    let t ← s.evalCond env p
    return t.or (← s.evalCond env q)
  | .cmp op a b =>
    let (x, y) ← match op with
      | .gt | .ge => do
        let y ← s.eval env b
        let x ← s.eval env a
        pure (x, y)
      | _ => do
        let x ← s.eval env a
        let y ← s.eval env b
        pure (x, y)
    s.relationTruth env op a b (← compareTruth op x y)

end

def readLValue (env : Env) (s : State) (lv : LValue) : Step Value := do
  s.loadPlaces env (← s.resolve env lv)

/-- The value of an expression if it is a constant other than zero. -/
def nonzeroConstant (env : Env) (s : State) (e : Expr) : Step (Option Int) := do
  return (← s.eval env e).toInt.constant?.filter (· != 0)

end State
end StaticAnalysis
