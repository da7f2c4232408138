import StaticAnalysis.Proofs.Program.Placement
import StaticAnalysis.Proofs.Program.Scalar
import StaticAnalysis.Transfer.Call

/-!
# Sequential integer programs

The programs in which every variable is an integer, nothing is reached through pointers, fields or
indices, and no thread is started and no mutex used.  `FunctionDef.isSequential` describes them
before they become graphs.  What is left of it in a graph is `Graph.Sequential`.

The name under which the analysis keeps the value that a function returns is not the name of a
variable.
-/

namespace StaticAnalysis

open Bool StaticAnalysis.Expr List

/-! ## Syntax -/

def isVariable (name : String) : Bool := name != State.retName

mutual

/-- An expression over integer variables, whose constants are words. -/
def Expr.isInteger : Expr → Bool
  | .const n => Word.fits n
  | .read (.var x) => isVariable x
  | .unknown => true
  | .arith _ a b => a.isInteger && b.isInteger
  | .neg e => e.isInteger
  | .truth c => c.isInteger
  | _ => false

/-- A condition over integer variables, whose constants are words. -/
def Cond.isInteger : Cond → Bool
  | .always | .never => true
  | .cmp _ a b => a.isInteger && b.isInteger
  | .not c => c.isInteger
  | .and p q => p.isInteger && q.isInteger
  | .or p q => p.isInteger && q.isInteger

end

def LValue.isInteger : LValue → Bool
  | .var x => isVariable x
  | _ => false

def Action.isSequential : Action → Bool
  | .skip => true
  | .assign lv e => lv.isInteger && e.isInteger
  | .guard c | .check _ c => c.isInteger
  | .call target _ args => target.all LValue.isInteger && args.all Expr.isInteger
  | .ret e => e.all Expr.isInteger
  | .havoc lv => lv.isInteger
  | _ => false

def Stmt.isSequential : Stmt → Bool
  | .done | .skip => true
  | .seq s t => s.isSequential && t.isSequential
  | .act a => a.isSequential
  | .check c => c.isInteger
  | .ret e => e.all Expr.isInteger
  | .ite c s t => c.isInteger && s.isSequential && t.isSequential
  | .loop c body => c.isInteger && body.isSequential

def VarDecl.isInteger (d : VarDecl) : Bool := d.ty == .int && isVariable d.name

def FunctionDef.isSequential (f : FunctionDef) : Bool :=
  (f.params ++ f.locals).all VarDecl.isInteger && f.body.isSequential

/-- The globals of a program are integers, and their initializers are words. -/
def Graph.hasIntegerGlobals (g : Graph) : Bool :=
  g.globals.entries.all fun (name, d) =>
    d.decl.ty == .int && isVariable name && d.init.all fun i => Word.fits i.2

mutual

lemma isScalar_of_isInteger : ∀ {e : Expr}, e.isInteger → e.isScalar
  | .const _, h => h
  | .read (.var _), _ => rfl
  | .read (.field _ _), h | .read (.index _ _), h | .read (.deref _), h =>
    by simp [Expr.isInteger] at h
  | .unknown, _ => rfl
  | .arith _ a b, h => by
    simp only [Expr.isInteger, and_eq_true] at h
    simp [Expr.isScalar, isScalar_of_isInteger h.1, isScalar_of_isInteger h.2]
  | .neg e, h => isScalar_of_isInteger (e := e) h
  | .truth _, h => Cond.isScalar_of_isInteger h
  | .addrOf _, h | .null, h | .unsupported _, h => by simp [Expr.isInteger] at h

lemma Cond.isScalar_of_isInteger : ∀ {c : Cond}, c.isInteger → c.isScalar
  | .always, _ | .never, _ => rfl
  | .cmp _ a b, h => by
    simp only [Cond.isInteger, and_eq_true] at h
    simp [Cond.isScalar, isScalar_of_isInteger h.1, isScalar_of_isInteger h.2]
  | .not c, h => Cond.isScalar_of_isInteger (c := c) h
  | .and p q, h | .or p q, h => by
    simp only [Cond.isInteger, and_eq_true] at h
    simp [Cond.isScalar, Cond.isScalar_of_isInteger h.1, Cond.isScalar_of_isInteger h.2]

end

lemma LValue.exists_var {lv : LValue} (h : lv.isInteger) : ∃ x, lv = .var x ∧ isVariable x := by
  cases lv with
  | var x => exact ⟨x, rfl, h⟩
  | _ => simp [isInteger] at h

lemma LValue.isScalar_of_isInteger {lv : LValue} (h : lv.isInteger) : lv.isScalar := by
  obtain ⟨x, rfl, -⟩ := exists_var h
  rfl

lemma Action.isScalar_of_isSequential {a : Action} (h : a.isSequential) : a.isScalar := by
  cases a with
  | assign lv e =>
    simp only [isSequential, and_eq_true] at h
    simp [isScalar, LValue.isScalar_of_isInteger h.1, isScalar_of_isInteger h.2]
  | guard c => exact Cond.isScalar_of_isInteger h
  | check id c => exact Cond.isScalar_of_isInteger h
  | call target callee args =>
    simp only [isSequential, and_eq_true, Option.all_eq_true, all_eq_true] at h
    simp only [isScalar, and_eq_true, Option.all_eq_true, all_eq_true]
    exact ⟨fun lv hlv => LValue.isScalar_of_isInteger (h.1 lv hlv),
      fun e he => isScalar_of_isInteger (h.2 e he)⟩
  | ret e =>
    simp only [isSequential, Option.all_eq_true] at h
    simp only [isScalar, Option.all_eq_true]
    exact fun x hx => isScalar_of_isInteger (h x hx)
  | havoc lv => exact LValue.isScalar_of_isInteger h
  | _ => first | rfl | simp [isSequential] at h

lemma Cond.isInteger_negate : ∀ c : Cond, c.negate.isInteger = c.isInteger
  | .always | .never | .cmp _ _ _ | .not _ => rfl
  | .and p q | .or p q => by
    simp [negate, isInteger, isInteger_negate p, isInteger_negate q]

/-! ## Graphs -/

namespace Graph

structure Sequential (g : Graph) : Prop extends Partitioned g where
  action : ∀ e ∈ g.edges.toList, e.action.isSequential = true
  declared : ∀ name f, g.function? name = some f → ∀ d ∈ f.params ++ f.locals, d.isInteger = true
  globals : ∀ name d, g.globals.get? name = some d →
    d.decl.ty = .int ∧ isVariable name = true ∧ ∀ i ∈ d.init, Word.fits i.2 = true

variable {g : Graph}

lemma scalarPaths_int : g.scalarPaths .int = [[]] := by
  simp [scalarPaths, nesting, scalarPathsWithin]

lemma cellType?_global {name : String} {d : GlobalDecl} (h : g.globals.get? name = some d) :
    g.cellType? (.ofGlobal name) = some d.decl.ty := by
  simp only [cellType?, Cell.ofGlobal, h]
  simp [partType?]

lemma Sequential.scalar (hg : g.Sequential) : g.Scalar where
  action e he := Action.isScalar_of_isSequential (hg.action e he)
  init name d hd := (hg.globals name d hd).2.2
  part name d hd path hpath := by
    obtain ⟨hty, -⟩ := hg.globals name d hd
    rw [hty, scalarPaths_int, mem_singleton] at hpath
    subst hpath
    change ((g.cellType? (.ofGlobal name)).getD .int).isArray = false
    rw [cellType?_global hd, hty]
    rfl

end Graph

/-! ## Lowering -/

lemma Stmt.emits_isSequential {s : Stmt} (h : s.isSequential) : s.Emits (·.isSequential) := by
  have hneg : ∀ {c : Cond}, c.isInteger = true → (Action.guard c.negate).isSequential = true :=
    fun {c} hc => c.isInteger_negate.trans hc
  induction s with
  | done | skip => trivial
  | seq s t hs ht =>
    simp only [isSequential, and_eq_true] at h
    exact ⟨hs h.1, ht h.2⟩
  | act a => exact h
  | check c => exact fun _ => h
  | ret e => exact h
  | ite c s t hs ht =>
    simp only [isSequential, and_eq_true] at h
    exact ⟨h.1.1, hneg h.1.1, hs h.1.2, ht h.2⟩
  | loop c body hbody =>
    simp only [isSequential, and_eq_true] at h
    exact ⟨h.1, hneg h.1, hbody h.2⟩

namespace Graph

lemma sequential_ofFunctions {base g : Graph} (hedges : base.edges = #[])
    (hfunctions : base.functions = .empty) (hglobals : base.hasIntegerGlobals)
    {functions : List FunctionDef} (hseq : ∀ f ∈ functions, f.isSequential)
    (h : ofFunctions base functions = .ok g) : g.Sequential := by
  simp only [FunctionDef.isSequential, and_eq_true, all_eq_true] at hseq
  have hbase : base.Sequential := by
    refine ⟨partitioned_of_isEmpty hedges hfunctions, by simp [hedges], ?_, fun name d hd => ?_⟩
    · simp [function?, hfunctions]
    · simp only [hasIntegerGlobals, all_eq_true, and_eq_true, beq_iff_eq] at hglobals
      have := hglobals _ (SortedMap.get?_eq_some_iff.1 hd)
      exact ⟨this.1.1, this.1.2, this.2⟩
  have hdraft : ((functions.forM Draft.addFunction) { graph := base }).2.graph.Sequential := by
    refine Draft.forM_addFunction_induct (fun f hf d hg => ?_) hbase
    have hadds := Draft.addsFunction_addFunction (Stmt.emits_isSequential (hseq f hf).2) rfl d
    refine ⟨partitioned_addsFunction hadds hg.toPartitioned, fun e he => ?_, fun name f' hf' => ?_,
      fun name d hd => hg.globals name d (hadds.globals ▸ hd)⟩
    · rcases hadds.edges e he with he | ⟨ha, -, -⟩
      exacts [hg.action e he, ha]
    · rcases hadds.functions name f' hf' with hf' | ⟨-, hparams, hlocals, -, -⟩
      · exact hg.declared name f' hf'
      · rw [hparams, hlocals]
        exact (hseq f hf).1
  obtain rfl := finish_eq h
  exact ⟨⟨hdraft.inside, hdraft.entry, hdraft.exit⟩, hdraft.action, hdraft.declared, hdraft.globals⟩

end Graph
end StaticAnalysis
