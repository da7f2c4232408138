import Mathlib.Logic.Function.Basic
import StaticAnalysis.Proofs.Numeric.Membership
import StaticAnalysis.Transfer.Edge

/-!
# Runs of sequential integer programs

What a program over integer variables does when it runs: expressions have exact values, a division
or remainder by zero has none, and a run goes on only with values that are words together with their
negation.  A conjunction fails as soon as one side does, whether or not the other side is evaluated,
and likewise a disjunction holds.

A run keeps the globals, the activation it is in and the activations that wait for it to return.
What a new activation finds in its locals is arbitrary, and so is what it returns without a returned
value.
-/

namespace StaticAnalysis

/-! ## Expressions -/

/-- The exact result of an operation, if there is one. -/
def ArithOp.result? : ArithOp → Int → Int → Option Int
  | .add, m, n => some (m + n)
  | .sub, m, n => some (m - n)
  | .mul, m, n => some (m * n)
  | .div, m, n => if n = 0 then none else some (m.tdiv n)
  | .mod, m, n => if n = 0 then none else some (m.tmod n)

def CmpOp.holds : CmpOp → Int → Int → Bool
  | .eq, m, n => m == n
  | .ne, m, n => m != n
  | .lt, m, n => decide (m < n)
  | .le, m, n => decide (m ≤ n)
  | .gt, m, n => decide (n < m)
  | .ge, m, n => decide (n ≤ m)

lemma CmpOp.holds_negate (op : CmpOp) (m n : Int) : op.negate.holds m n = !op.holds m n := by
  cases op <;> simp [negate, holds, bne, ← decide_not]

lemma CmpOp.holds_swap (op : CmpOp) (m n : Int) : op.swap.holds n m = op.holds m n := by
  cases op <;> simp [swap, holds, bne, BEq.comm]

mutual

/-- An expression over variables may have a value, given what the variables hold. -/
def Expr.Yields (memory : String → Int) : Expr → Int → Prop
  | .const n, v => v = n ∧ Word.Admissible v
  | .read (.var x), v => v = memory x ∧ Word.Admissible v
  | .unknown, v => Word.Admissible v
  | .arith op a b, v =>
    ∃ m n, a.Yields memory m ∧ b.Yields memory n ∧ op.result? m n = some v ∧ Word.Admissible v
  | .neg a, v => ∃ n, a.Yields memory n ∧ v = -n
  | .truth c, v => ∃ b, c.Outcome memory b ∧ v = if b then 1 else 0
  | _, _ => False

/-- A condition over variables may have an outcome, given what the variables hold. -/
def Cond.Outcome (memory : String → Int) : Cond → Bool → Prop
  | .always, b => b = true
  | .never, b => b = false
  | .cmp op x y, b => ∃ m n, x.Yields memory m ∧ y.Yields memory n ∧ op.holds m n = b
  | .not c, b => c.Outcome memory !b
  | .and p q, true => p.Outcome memory true ∧ q.Outcome memory true
  | .and p q, false => p.Outcome memory false ∨ q.Outcome memory false
  | .or p q, true => p.Outcome memory true ∨ q.Outcome memory true
  | .or p q, false => p.Outcome memory false ∧ q.Outcome memory false

end

lemma Expr.Yields.admissible {memory : String → Int} :
    ∀ {e : Expr} {n : Int}, e.Yields memory n → Word.Admissible n
  | .const _, _, h => h.2
  | .read (.var _), _, h => h.2
  | .read (.field _ _), _, h | .read (.index _ _), _, h | .read (.deref _), _, h => absurd h id
  | .unknown, _, h => h
  | .arith _ _ _, _, ⟨_, _, _, _, _, h⟩ => h
  | .neg _, _, ⟨n, h, rfl⟩ => ⟨h.admissible.2, by rw [Int.neg_neg]; exact h.admissible.1⟩
  | .truth _, _, ⟨b, _, rfl⟩ => by cases b <;> decide
  | .addrOf _, _, h | .null, _, h | .unsupported _, _, h => absurd h id

/-! ## Activations -/

/-- What an activation of a function sees: where it is, its locals, the value it is to return and
the globals. -/
structure Moment where
  function : String
  node : Nat
  locals : String → Int
  result : Int
  globals : String → Int

namespace Graph

/-- Whether a name is a local of a function: locals shadow globals, and undeclared names are
locals. -/
def isLocalIn (g : Graph) (function name : String) : Bool :=
  ((g.function? function).bind (·.varType? name)).isSome || !g.isGlobal name

/-- What the integer globals hold when a program starts. -/
def startGlobals (g : Graph) (name : String) : Int :=
  ((g.globals.get? name).bind fun d => (d.init.find? (·.1 == [])).map (·.2)).getD 0

end Graph

namespace Moment

def read (g : Graph) (m : Moment) (name : String) : Int :=
  if g.isLocalIn m.function name then m.locals name else m.globals name

def write (g : Graph) (m : Moment) (name : String) (n : Int) : Moment :=
  if g.isLocalIn m.function name then { m with locals := Function.update m.locals name n }
  else { m with globals := Function.update m.globals name n }

/-- What an action within a function does.  A check does not stop a run, whatever its outcome. -/
inductive Acts (g : Graph) : Action → Moment → Moment → Prop
  | skip {m : Moment} : Acts g .skip m m
  | assign {m : Moment} {x : String} {e : Expr} {n : Int} (h : e.Yields (m.read g) n) :
    Acts g (.assign (.var x) e) m (m.write g x n)
  | guard {m : Moment} {c : Cond} (h : c.Outcome (m.read g) true) : Acts g (.guard c) m m
  | check {m : Moment} {id : Nat} {c : Cond} {b : Bool} (h : c.Outcome (m.read g) b) :
    Acts g (.check id c) m m
  | ret {m : Moment} : Acts g (.ret none) m m
  | retValue {m : Moment} {e : Expr} {n : Int} (h : e.Yields (m.read g) n) :
    Acts g (.ret (some e)) m { m with result := n }
  | havoc {m : Moment} {x : String} {n : Int} (h : Word.Admissible n) :
    Acts g (.havoc (.var x)) m (m.write g x n)

/-- The locals of an activation once its parameters are bound, in order; a parameter without an
argument keeps what was there. -/
def bind (params : List VarDecl) (values : List Int) (locals : String → Int) : String → Int :=
  (params.zip values).foldl (fun l p => Function.update l p.1.name p.2) locals

/-- A call of `callee` with `args` may start a new activation. -/
inductive Enters (g : Graph) (callee : String) (args : List Expr) (m : Moment) : Moment → Prop
  | intro {f : Function} {values : List Int} {locals : String → Int} {result : Int}
    (hf : g.function? callee = some f)
    (hvalues : List.Forall₂ (fun e n => e.Yields (m.read g) n) args values) :
    Enters g callee args m ⟨callee, f.entry, bind f.params values locals, result, m.globals⟩

/-- The caller, waiting since `m`, goes on at `node` after its callee ended. -/
def resume (g : Graph) (m : Moment) (target : Option LValue) (ended : Moment) (node : Nat) :
    Moment :=
  match target with
  | some (.var x) => { m with node, globals := ended.globals }.write g x ended.result
  | _ => { m with node, globals := ended.globals }

end Moment

/-! ## Runs -/

/-- The activation that runs, and those that wait for it with the number of their call's edge, the
innermost first. -/
structure Machine where
  now : Moment
  callers : List (Moment × Nat)

namespace Machine

inductive Step (g : Graph) : Machine → Machine → Prop
  | act {m n : Moment} {k : List (Moment × Nat)} {id : Nat} {e : Edge}
    (he : g.edges[id]? = some e) (hsrc : e.src = m.node) (h : Moment.Acts g e.action m n) :
    Step g ⟨m, k⟩ ⟨{ n with node := e.dst }, k⟩
  | call {m n : Moment} {k : List (Moment × Nat)} {id : Nat} {e : Edge} {target : Option LValue}
    {callee : String} {args : List Expr} (he : g.edges[id]? = some e) (hsrc : e.src = m.node)
    (ha : e.action = .call target callee args) (h : Moment.Enters g callee args m n) :
    Step g ⟨m, k⟩ ⟨n, (m, id) :: k⟩
  | ret {m c : Moment} {k : List (Moment × Nat)} {id : Nat} {e : Edge} {target : Option LValue}
    {callee : String} {args : List Expr} {f : Function} (he : g.edges[id]? = some e)
    (ha : e.action = .call target callee args) (hf : g.function? m.function = some f)
    (hexit : m.node = f.exit) : Step g ⟨m, (c, id) :: k⟩ ⟨c.resume g target m e.dst, k⟩

/-- A run from an entry point leads here. -/
inductive Reaches (g : Graph) (settings : Settings) : Machine → Prop
  | start {name : String} {f : Function} {locals : String → Int} {result : Int}
    (hname : name ∈ settings.entryPoints) (hf : g.function? name = some f) :
    Reaches g settings ⟨⟨name, f.entry, locals, result, g.startGlobals⟩, []⟩
  | step {c d : Machine} (h : Reaches g settings c) (hstep : Step g c d) : Reaches g settings d

end Machine

/-! ## Activations in context -/

/-- The context in which a call is analysed.  A chain of calls that a policy refuses has no result,
and any context will do for it. -/
def Settings.calleeContext (settings : Settings) (context : Context) (site : Nat)
    (caller callee : String) : Context :=
  if settings.isModularCall context callee then .modular
  else
    match settings.context.callee context site caller callee with
    | .ok inner => inner
    | .error _ => context

/-- Some run has an activation in `context` that started as the second argument says and is now as
the third says.  An activation that waits for a call goes on with what any activation of its callee
ends with that the call may have started, so the relation forgets how activations are stacked. -/
inductive Occurs (g : Graph) (settings : Settings) : Context → Moment → Moment → Prop
  | start {name : String} {f : Function} {locals : String → Int} {result : Int}
    (hname : name ∈ settings.entryPoints) (hf : g.function? name = some f) :
    Occurs g settings (settings.context.root .main name)
      ⟨name, f.entry, locals, result, g.startGlobals⟩ ⟨name, f.entry, locals, result,
      g.startGlobals⟩
  | act {context : Context} {o m n : Moment} {id : Nat} {e : Edge}
    (hm : Occurs g settings context o m)
    (he : g.edges[id]? = some e) (hsrc : e.src = m.node) (h : Moment.Acts g e.action m n) :
    Occurs g settings context o { n with node := e.dst }
  | call {context : Context} {o m n : Moment} {id : Nat} {e : Edge} {target : Option LValue}
    {callee : String} {args : List Expr} (hm : Occurs g settings context o m)
    (he : g.edges[id]? = some e) (hsrc : e.src = m.node) (ha : e.action = .call target callee args)
    (h : Moment.Enters g callee args m n) :
    Occurs g settings (settings.calleeContext context id m.function callee) n n
  | ret {context : Context} {o m n ended : Moment} {id : Nat} {e : Edge} {target : Option LValue}
    {callee : String} {args : List Expr} {f : Function} (hm : Occurs g settings context o m)
    (he : g.edges[id]? = some e) (hsrc : e.src = m.node) (ha : e.action = .call target callee args)
    (h : Moment.Enters g callee args m n)
    (hended : Occurs g settings (settings.calleeContext context id m.function callee) n ended)
    (hf : g.function? callee = some f) (hexit : ended.node = f.exit) :
    Occurs g settings context o (m.resume g target ended e.dst)

namespace Occurs

variable {g : Graph} {settings : Settings} {context : Context} {o m : Moment}

lemma function_write {x : String} {n : Int} : (m.write g x n).function = m.function := by
  unfold Moment.write
  split <;> rfl

lemma function_acts {a : Action} {n : Moment} (h : Moment.Acts g a m n) : n.function = m.function := by
  cases h <;> first | rfl | exact function_write

lemma function_enters {callee : String} {args : List Expr} {n : Moment}
    (h : Moment.Enters g callee args m n) : n.function = callee := by
  cases h
  rfl

lemma function_resume {target : Option LValue} {ended : Moment} {node : Nat} :
    (m.resume g target ended node).function = m.function := by
  unfold Moment.resume
  split
  exacts [function_write, rfl]

lemma function_eq (h : Occurs g settings context o m) : m.function = o.function := by
  induction h with
  | start => rfl
  | act _ _ _ h ih => exact (function_acts h).trans ih
  | call => rfl
  | ret _ _ _ _ _ _ _ _ ih _ => exact function_resume.trans ih

/-- The waiting activations of a machine, each with the one that it called. -/
inductive Waiting (g : Graph) (settings : Settings) : Context → Moment → List (Moment × Nat) → Prop
  | bottom {context : Context} {o : Moment} : Waiting g settings context o []
  | caller {context : Context} {o m n : Moment} {k : List (Moment × Nat)} {id : Nat} {e : Edge}
    {target : Option LValue} {callee : String} {args : List Expr}
    (hm : Occurs g settings context o m) (hk : Waiting g settings context o k)
    (he : g.edges[id]? = some e) (hsrc : e.src = m.node) (ha : e.action = .call target callee args)
    (h : Moment.Enters g callee args m n) :
    Waiting g settings (settings.calleeContext context id m.function callee) n ((m, id) :: k)

lemma of_reaches {c : Machine} (h : Machine.Reaches g settings c) :
    ∃ context o, Occurs g settings context o c.now ∧ Waiting g settings context o c.callers := by
  induction h with
  | start hname hf => exact ⟨_, _, .start hname hf, .bottom⟩
  | step _ hstep ih =>
    obtain ⟨context, o, hnow, hwait⟩ := ih
    cases hstep with
    | act he hsrc h => exact ⟨context, o, .act hnow he hsrc h, hwait⟩
    | call he hsrc ha h => exact ⟨_, _, .call hnow he hsrc ha h, .caller hnow hwait he hsrc ha h⟩
    | ret he ha hf hexit =>
      generalize hk : (_, _) :: _ = k at hwait
      cases hwait with
      | bottom => cases hk
      | caller hm hwait he' hsrc ha' h =>
        cases hk
        rw [he] at he'
        cases he'
        rw [ha] at ha'
        cases ha'
        rw [hnow.function_eq.trans (function_enters h)] at hf
        exact ⟨_, _, .ret hm he hsrc ha h hnow hf hexit, hwait⟩

end Occurs
end StaticAnalysis
