import StaticAnalysis.Transfer.Assign

/-!
# Conditions as constraints

`guard` restricts a state to the runs in which a condition holds, or in which it fails.  A
comparison is used twice: its two sides are refined backwards through their operands, and the
relations take it in if it is linear.  `check` decides a condition: it holds if no run is left in
which it fails.
-/

namespace StaticAnalysis
namespace State

variable (env : Env) (s : State)

/-- Meet the value in a cell with a target; `none` if the two are of different sorts. -/
def meetTarget (current target : Value) : Except Fault (Option Value) :=
  match current, target with
  | .int a, .int b => return some (.int (← (← a.meet b).restrict env.domains))
  | .top, .int b => return some (.int (← b.restrict env.domains))
  | .addr a, .addr b => return some (.addr (a.meet b))
  | .top, .addr b => return some (.addr b)
  | _, _ => return none

/-- Store a refined value in a cell that stands for one object.  What other threads can change, or
what belongs to unknown callers, is not refined. -/
def refineCell (c : Cell) (v : Value) : Except Fault State := do
  if ofCaller env c then return s
  if s.multithreaded && c.isGlobal then return s.refineCopy c v
  if s.multithreaded && s.isEscaped c then return s
  let s ← s.set c v
  match c.localVar? with
  | some (function, name) =>
    if function = env.function ∧ s.tracked env name then
      let relation ← s.relation.setBounds name v.toInt.interval
      return { s with relation, reachable := s.reachable && !relation.isBottom }
    else return s
  | none => return s

/-- Restrict a state to the runs in which a designator has a value in the target. -/
def refineLValue (lv : LValue) (target : Value) : Step State := do
  match ← s.resolve env lv with
  | some [p] =>
    if !p.isCell || !p.cell.base.isUnique then return s
    let current ← s.loadCell env p.cell
    match ← meetTarget env current target with
    | none => return s
    | some v => if ← v.isBottom then return s.stop else s.refineCell env p.cell v
  | _ => return s

/-- Restrict a state to the runs in which an expression has an address in the target. -/
def refineAddr (e : Expr) (target : AddrSet) : Step State :=
  if target.isBottom then return s.stop
  else
    match e with
    | .read lv => s.refineLValue env lv (.addr target)
    | _ => return s

/-- Restrict a state to the runs in which two addresses are equal or different. -/
def refineAddrs (op : CmpOp) (a b : Expr) (x y : AddrSet) : Step State := do
  match op with
  | .eq =>
    let s ← s.refineAddr env a (x.meet y)
    s.refineAddr env b (y.meet x)
  | .ne =>
    if y = .null then s.refineAddr env a x.withoutNull
    else if x = .null then s.refineAddr env b y.withoutNull
    else return s
  | _ => return s

/-- The values that the two sides of a comparison can have if it holds. -/
def comparisonTargets (op : CmpOp) (x y : IntVal) : Except Fault (IntVal × IntVal) :=
  match op with
  | .eq => return (← x.meet y, ← y.meet x)
  | .ne => return (← x.restrictNe y, ← y.restrictNe x)
  | .lt => return (← x.restrictLt y, ← y.restrictGt x)
  | .le => return (← x.restrictLe y, ← y.restrictGe x)
  | .gt => return (← x.restrictGt y, ← y.restrictLt x)
  | .ge => return (← x.restrictGe y, ← y.restrictLe x)

/-- Let the relations take in a linear comparison, and pass what they find on to the cells of its
variables. -/
def guardRelation (op : CmpOp) (a b : Expr) : Except Fault State := do
  if !s.reachable || !s.relation.isEnabled then return s
  let some c ← (op.linear? (s.tracked env) a b).run | return s
  let s := { s with relation := ← s.relation.guard c }
  if s.relation.isBottom then return s.stop
  c.form.vars.foldlM (fun (s : State) name => do
    if !s.reachable then return s
    let cell := env.varCell name
    let v ← (s.get cell).toInt.meet (.ofInterval (s.relation.bounds name))
    if v.isBottom then return s.stop else s.set cell (.int v)) s

/-- The dividends whose remainder by `m` is `r`: those in a residue class that have the sign
of `r`. -/
def dividends (r m : Int) : Except Fault IntVal :=
  let sign := if 0 < r then Interval.atLeast r else if r < 0 then Interval.atMost r else .top
  IntVal.reduced sign (.remPreimage r m)

mutual

/-- Restrict a state to the runs in which a condition holds (`holds`) or fails. -/
def guard (env : Env) (holds : Bool) (c : Cond) (s : State) : Step State := do
  if !s.reachable then return s
  match c with
  | .always => return if holds then s else s.stop
  | .never => return if holds then s.stop else s
  | .not c => guard env (!holds) c s
  | .and p q =>
    if holds then
      let s ← guard env true p s
      guard env true q s
    else
      let left ← guard env false p s
      let right ← guard env false q s
      left.join right
  | .or p q =>
    if holds then
      let left ← guard env true p s
      let right ← guard env true q s
      left.join right
    else
      let s ← guard env false p s
      guard env false q s
  | .cmp op a b =>
    let op := if holds then op else op.negate
    if (← s.evalCond env (.cmp op a b)) = .false then return s.stop
    let s ← match op with
      | .gt | .ge => do
        let y ← s.eval env b
        let x ← s.eval env a
        if x.isAddr || y.isAddr then pure s
        else
          let (ty, tx) ← comparisonTargets op.swap y.toInt x.toInt
          let s ← refine env b ty s
          refine env a tx s
      | _ => do
        let x ← s.eval env a
        let y ← s.eval env b
        if x.isAddr || y.isAddr then s.refineAddrs env op a b x.toAddr y.toAddr
        else
          let (tx, ty) ← comparisonTargets op x.toInt y.toInt
          let s ← refine env a tx s
          refine env b ty s
    s.guardRelation env op a b

/-- Restrict a state to the runs in which an expression has a value in the target. -/
def refine (env : Env) (e : Expr) (target : IntVal) (s : State) : Step State := do
  if !s.reachable then return s
  if target.isBottom then return s.stop
  match e with
  | .read lv => s.refineLValue env lv (.int target)
  | .arith .add a b =>
    let x := (← s.eval env a).toInt
    let y := (← s.eval env b).toInt
    let s ← refine env a (← target.sub y) s
    refine env b (← target.sub x) s
  | .arith .sub a b =>
    let x := (← s.eval env a).toInt
    let y := (← s.eval env b).toInt
    let s ← refine env a (← target.add y) s
    refine env b (← x.sub target) s
  | .arith .mul a b =>
    match ← s.nonzeroConstant env b with
    | some c => refine env a (.ofInterval (target.interval.mulPreimage c)) s
    | none =>
      match ← s.nonzeroConstant env a with
      | some c => refine env b (.ofInterval (target.interval.mulPreimage c)) s
      | none => return s
  | .arith .div a b =>
    match ← s.nonzeroConstant env b with
    | some c => refine env a (.ofInterval (target.interval.divPreimage c)) s
    | none => return s
  | .arith .mod a b =>
    match ← s.nonzeroConstant env b, target.constant? with
    | some m, some r =>
      if m.natAbs ≤ r.natAbs then return s.stop
      else refine env a (← dividends r m) s
    | _, _ => return s
  | .neg a => refine env a (← target.neg) s
  | .truth c =>
    if target.constant? = some 0 then guard env false c s
    else if !target.interval.contains 0 then guard env true c s
    else return s
  | _ => return s

end

/-- Whether a condition holds in every run (`true`) or in none (`false`). -/
def check (env : Env) (s : State) (c : Cond) : Step Truth := do
  match ← s.evalCond env c with
  | .unknown =>
    if (← guard env false c s).isBottom then return .true
    else if (← guard env true c s).isBottom then return .false
    else return .unknown
  | t => return t

end State
end StaticAnalysis
