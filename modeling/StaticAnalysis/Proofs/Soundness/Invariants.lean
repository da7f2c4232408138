import StaticAnalysis.Proofs.Soundness.Verdicts

/-!
# Soundness of exported invariants

The facts that an analysis exports at a loop head or a function entry are conditions on one variable
each.  On sequential integer programs they hold whenever a run is there: the exported state is the
join of the states that a node has in its contexts, and one of them covers the run.

A fact is about a cell and is printed with the name of the cell.  The two part where a local hides a
global:  the facts about the global are exported under the name that stands for the local.
-/

namespace StaticAnalysis

open Bool StaticAnalysis.Bound Fault List Option SortedMap

inductive Clause where
  | equal (n : Int)
  | atLeast (n : Int)
  | atMost (n : Int)
  | remainder (k r : Int)
deriving DecidableEq, Repr

namespace Clause

/-- The condition on a variable, in C. -/
def text (name : String) : Clause → String
  | .equal n => name ++ " == " ++ toString n
  | .atLeast n => name ++ " >= " ++ toString n
  | .atMost n => name ++ " <= " ++ toString n
  | .remainder k r => name ++ " % " ++ toString k ++ " == " ++ toString r

/-- Whether an integer satisfies a condition.  The remainder is that of a division that rounds
towards zero. -/
def holds (m : Int) : Clause → Bool
  | .equal n => m == n
  | .atLeast n => decide (n ≤ m)
  | .atMost n => decide (m ≤ n)
  | .remainder k r => m.tmod k == r

end Clause

/-! ## Facts of a state -/

lemma Congruence.tmod_of_contains {r k n : Int} (h : (residue r k).contains n)
    (hn : 0 ≤ n) : n.tmod k = r % k := by
  rw [Int.tmod_eq_emod_of_nonneg hn, Int.emod_eq_emod_iff_emod_sub_eq_zero]
  exact Int.emod_eq_zero_of_dvd (residue_contains.1 h)

lemma holds_of_mem_intFacts {c : Cell} {v : IntVal} {n : Int} {text : String}
    (hn : v.contains n) (h : text ∈ intFacts c v) :
    ∃ clause : Clause, text = clause.text c.text ∧ clause.holds n := by
  obtain ⟨hinterval, hcongruence⟩ := IntVal.contains_iff.1 hn
  obtain ⟨hlow, hhigh⟩ := Interval.contains_iff.1 hinterval
  unfold intFacts at h
  split at h
  next k hk =>
    rw [mem_singleton.1 h]
    exact ⟨.equal k, rfl, by simp [Clause.holds, IntVal.eq_of_constant? hk hn]⟩
  simp only [mem_append, mem_toList, map_eq_some_iff] at h
  rcases h with (⟨l, hl, rfl⟩ | ⟨u, hu, rfl⟩) | hresidue
  · rw [toFinite?_eq_some.1 hl, finite_le_finite] at hlow
    exact ⟨.atLeast l, rfl, by simpa [Clause.holds] using hlow⟩
  · rw [toFinite?_eq_some.1 hu, finite_le_finite] at hhigh
    exact ⟨.atMost u, rfl, by simpa [Clause.holds] using hhigh⟩
  split at hresidue
  next r k hrk =>
    rw [hrk] at hcongruence
    split at hresidue
    next hpositive =>
      simp only [and_eq_true, Option.any_eq_true, decide_eq_true_eq] at hpositive
      obtain ⟨-, l, hl, hzero⟩ := hpositive
      rw [toFinite?_eq_some.1 hl, finite_le_finite] at hlow
      rw [mem_singleton.1 hresidue]
      have hrem := Congruence.tmod_of_contains hcongruence (hzero.trans hlow)
      exact ⟨.remainder k (r % k), rfl, by simpa [Clause.holds] using hrem⟩
    next => cases hresidue
  next => cases hresidue

namespace State

variable {s : State} {m : Moment} {modular : Bool}

lemma Covers.facts (hcov : s.Covers modular m) (hs : s.Numeric) {texts : List String}
    (h : s.facts m.function = .ok texts) {text : String} (htext : text ∈ texts) :
    ∃ c n, ∃ clause : Clause, text = clause.text c.text ∧ inScope m.function c ∧
      m.content? modular c = some n ∧ clause.holds n := by
  unfold State.facts at h
  rw [hs.flat.relation] at h
  cases h
  rw [SortedSet.mem_toList, SortedSet.mem_ofList, append_nil, mem_flatMap] at htext
  obtain ⟨⟨c, v⟩, hentry, hfact⟩ := htext
  obtain ⟨hv, hscope⟩ := filter_eq_some_iff.1 (get?_filter _ _ c ▸ get?_eq_some_iff.2 hentry)
  obtain ⟨n, hn, hhas⟩ := hcov.cells c v hv
  obtain rfl | rfl | ⟨i, rfl, -⟩ := (hs.cells c v hv).cases
  · cases hfact
  · cases hfact
  · obtain ⟨clause, hclause, hholds⟩ := holds_of_mem_intFacts hhas hfact
    exact ⟨c, n, clause, hclause, hscope, hn, hholds⟩

end State

/-! ## The state of a node -/

lemma Solution.covers_stateAt {sol : Solution} {p : Point} {s r : State} {m : Moment}
    (hstates : ∀ p s, sol.states.get? p = some s → s.Numeric) (hp : sol.states.get? p = some s)
    (hcov : s.Covers p.context.isModular m) (h : sol.stateAt p.node = .ok r) :
    r.Numeric ∧ r.Covers p.context.isModular m := by
  have hnumeric : ∀ ct ∈ sol.contexts p.node, ct.2.Numeric := by
    intro ct hct
    obtain ⟨⟨q, t⟩, hentry, hq⟩ := mem_filterMap.1 hct
    obtain ⟨-, hq⟩ := ite_none_right_eq_some.1 hq
    cases hq
    exact hstates q t (get?_eq_some_iff.2 hentry)
  have hmem : (p.context, s) ∈ sol.contexts p.node :=
    mem_filterMap.2 ⟨(p, s), get?_eq_some_iff.1 hp, if_pos rfl⟩
  -- A state that was joined in stays below the join, whatever is joined in later.
  obtain ⟨hr, hall⟩ := foldlM_visit (P := State.Numeric)
    (R := fun ct t => ct.2.Covers p.context.isModular m → t.Covers p.context.isModular m)
    (fun acc ct t hct hacc ht =>
      ⟨State.numeric_join hacc (hnumeric ct hct) ht,
        fun hcov => .join (.inr hcov) hacc (hnumeric ct hct) ht,
        fun _ _ hkept hcov => .join (.inl (hkept hcov)) hacc (hnumeric ct hct) ht⟩)
    State.numeric_unreachable h
  exact ⟨hr, hall _ hmem hcov⟩

/-! ## Exports -/

section Export

variable {g : Graph} {sol : Solution} {node : Nat} {kind : InvariantKind} {inv : Invariant}

lemma invariantOf?_eq_some (h : invariantOf? g sol node kind = .ok (some inv)) :
    inv.node = node ∧ inv.kind = kind ∧ g.Belongs node inv.function ∧
      ∃ s, sol.stateAt node = .ok s ∧ s.facts inv.function = .ok inv.facts := by
  obtain ⟨s, hs, h⟩ := bind_eq_ok.1 h
  split at h
  · cases h
  obtain ⟨n, hn, h⟩ := bind_eq_ok.1 h
  obtain ⟨facts, hfacts, h⟩ := bind_eq_ok.1 h
  cases h
  refine ⟨rfl, rfl, ⟨n, ?_, rfl⟩, s, hs, hfacts⟩
  unfold Graph.node at hn
  split at hn
  next hnode => exact hnode.trans (congrArg some (Except.ok.inj hn))
  next => cases hn

lemma isBottom_of_invariantOf? (h : invariantOf? g sol node kind = .ok none) {s : State}
    (hs : sol.stateAt node = .ok s) : s.isBottom := by
  unfold invariantOf? at h
  rw [hs, ok_bind] at h
  split at h
  next hbottom => exact hbottom
  obtain ⟨_, -, h⟩ := bind_eq_ok.1 h
  obtain ⟨_, -, h⟩ := bind_eq_ok.1 h
  cases h

lemma analyze_invariants {settings : Settings} {result : AnalysisResult}
    (h : analyze g settings = .ok result) (hexport : settings.exportInvariants) :
    ∃ sol exported, (Solver.new g settings).solve = .ok sol ∧ result.invariants = some exported ∧
      InvariantExport.ofSolution g sol = .ok exported := by
  obtain ⟨_, -, h⟩ := bind_eq_ok.1 h
  obtain ⟨sol, hsol, h⟩ := bind_eq_ok.1 h
  obtain ⟨_, -, h⟩ := bind_eq_ok.1 (AnalysisError.ofFault_eq_ok.1 h)
  rw [if_pos hexport] at h
  obtain ⟨_, hinvariants, h⟩ := bind_eq_ok.1 h
  obtain ⟨exported, hexported, rfl⟩ := map_eq_ok.1 hinvariants
  cases h
  exact ⟨sol, exported, hsol, rfl, hexported⟩

end Export

namespace Moment

lemma content?_of_modular {modular : Bool} {m : Moment} {c : Cell} {n : Int}
    (h : m.content? modular c = some n) : m.content? false c = some n := by
  obtain ⟨name, rfl, rfl⟩ | ⟨-, name, rfl, rfl⟩ := content?_cases h
  · exact content?_local
  · exact content?_global

lemma read_of_content? {g : Graph} {m : Moment} {c : Cell} {n : Int} {x : String}
    (hscope : inScope m.function c) (hn : m.content? false c = some n)
    (hc : c = if g.isLocalIn m.function x then .ofLocal m.function x else .ofGlobal x) :
    m.read g x = n := by
  unfold read
  split at hc <;> subst hc
  next hlocal =>
    have hx : x ≠ State.retName := by
      rintro rfl
      simp [inScope, Cell.isGlobal, Cell.ofLocal, Base.rank, Base.label] at hscope
    rw [content?_local, held, if_neg hx] at hn
    simpa [hlocal] using hn
  next hglobal =>
    rw [content?_global] at hn
    simpa [hglobal] using hn

end Moment

/-- Exported invariants are sound on sequential integer programs.  If a run is at a loop head or at
a function entry, the analysis exports an invariant for it, and each fact there is a condition on a
variable in scope that holds of what the variable has at that moment.  Unless a local hides a
global, that is what the program reads under the name. -/
theorem invariants_sound {base g : Graph} {functions : List FunctionDef} {settings : Settings}
    {result : AnalysisResult} (hedges : base.edges = #[]) (hfunctions : base.functions = .empty)
    (hglobals : base.hasIntegerGlobals = true) (hseq : ∀ f ∈ functions, f.isSequential = true)
    (hbuilt : Graph.ofFunctions base functions = .ok g) (hrelation : settings.relation = .none)
    (hexport : settings.exportInvariants = true) (h : analyze g settings = .ok result) :
    ∃ exported, result.invariants = some exported ∧
      ∀ machine, Machine.Reaches g settings machine →
        (∀ kind, (machine.now.node, kind) ∈ invariantNodes g → ∃ inv ∈ exported.invariants,
          inv.node = machine.now.node ∧ inv.kind = kind) ∧
        ∀ inv ∈ exported.invariants, inv.node = machine.now.node →
          inv.function = machine.now.function ∧
          ∀ text ∈ inv.facts, ∃ c n, ∃ clause : Clause, text = clause.text c.text ∧
            inScope machine.now.function c = true ∧ machine.now.content? false c = some n ∧
            clause.holds n = true ∧
            ∀ x, (c = if g.isLocalIn machine.now.function x then .ofLocal machine.now.function x
              else .ofGlobal x) → machine.now.read g x = n := by
  have hg := Graph.sequential_ofFunctions hedges hfunctions hglobals hseq hbuilt
  obtain ⟨sol, exported, hsol, hinvariants, hexported⟩ := analyze_invariants h hexport
  refine ⟨exported, hinvariants, fun machine hmachine => ?_⟩
  obtain ⟨s, hs, rfl⟩ := Solver.covering_solve hg hrelation hsol
  obtain ⟨context, o, hocc, -⟩ := Occurs.of_reaches hmachine
  obtain ⟨a, ha, hcov⟩ := (hs.describes context o machine.now hocc).state
  obtain ⟨invariants, hkept, hexported⟩ := bind_eq_ok.1 hexported
  cases hexported
  obtain ⟨hfrom, hto⟩ := mem_filterMapM hkept
  have hstate : ∀ r, s.solution.stateAt machine.now.node = .ok r →
      r.Numeric ∧ r.Covers context.isModular machine.now := fun r hr =>
    Solution.covers_stateAt (p := ⟨machine.now.node, context⟩) hs.numeric.states ha hcov hr
  constructor
  · intro kind hkind
    obtain ⟨o, ho, hmem⟩ := hto _ hkind
    obtain ⟨r, hr, -⟩ := bind_eq_ok.1 ho
    cases o with
    | none =>
      have hbottom := isBottom_of_invariantOf? ho hr
      obtain ⟨hnumeric, hcovers⟩ := hstate r hr
      simp [hnumeric.flat.isBottom_eq, hcovers.reachable] at hbottom
    | some inv =>
      obtain ⟨hnode, hkind, -⟩ := invariantOf?_eq_some ho
      exact ⟨inv, hmem inv rfl, hnode, hkind⟩
  · intro inv hinv hnode
    obtain ⟨⟨node, kind⟩, -, hof⟩ := hfrom inv hinv
    obtain ⟨rfl, -, hbelongs, r, hr, hfacts⟩ := invariantOf?_eq_some hof
    rw [hnode] at hbelongs hr
    obtain ⟨hnumeric, hcovers⟩ := hstate r hr
    have hfunction := hbelongs.unique (hocc.belongs hg)
    rw [hfunction] at hfacts
    refine ⟨hfunction, fun text htext => ?_⟩
    obtain ⟨c, n, clause, htext, hscope, hn, hholds⟩ := hcovers.facts hnumeric hfacts htext
    have hcontent := Moment.content?_of_modular hn
    exact ⟨c, n, clause, htext, hscope, hcontent, hholds, fun x hx =>
      Moment.read_of_content? hscope hcontent hx⟩

/-! ## A function with a loop

Sorting does not reduce in the kernel.  With one function and one loop there is nothing to sort, and
what is exported can be computed. -/

/-- Whether a program is one function with one loop, and these facts are exported at the head of the
loop. -/
def exportsAtLoop (g : Graph) (settings : Settings) (head : Nat) (facts : List String) : Bool :=
  g.loops.heads.toList == [head] && (g.functions.values.map (·.entry)) == [0] &&
    (validate g settings).isOk && match (Solver.new g settings).solve with
    | .ok sol => (Report.ofSolution g settings sol).isOk &&
      (invariantOf? g sol 0 .precondition).isOk && match invariantOf? g sol head .loopInvariant with
      | .ok (some inv) => inv.facts == facts
      | _ => false
    | .error _ => false

section OneLoop

lemma Fault.exists_of_isOk {ε α : Type} {e : Except ε α} (h : e.isOk) : ∃ a, e = .ok a := by
  cases e with
  | ok a => exact ⟨a, rfl⟩
  | error _ => cases h

variable {g : Graph} {settings : Settings} {head : Nat} {facts : List String}

lemma invariantNodes_one_loop (hhead : g.loops.heads.toList = [head + 1])
    (hentry : g.functions.values.map (·.entry) = [0]) :
    invariantNodes g = [(0, .precondition), (head + 1, .loopInvariant)] := by
  have hmap : g.functions.values.map (fun f => (f.entry, InvariantKind.precondition)) =
      [(0, .precondition)] := by
    simpa [Function.comp_def] using congrArg (List.map (·, InvariantKind.precondition)) hentry
  unfold invariantNodes
  rw [hhead, hmap]
  simp [List.mergeSort, List.MergeSort.Internal.splitInTwo]

lemma analyze_of_exportsAtLoop (hexport : settings.exportInvariants)
    (h : exportsAtLoop g settings (head + 1) facts) :
    ∃ result exported inv, analyze g settings = .ok result ∧ result.invariants = some exported ∧
      inv ∈ exported.invariants ∧ inv.node = head + 1 ∧ inv.facts = facts := by
  simp only [exportsAtLoop, and_eq_true, beq_iff_eq] at h
  obtain ⟨⟨⟨hhead, hentry⟩, hvalid⟩, h⟩ := h
  split at h
  next sol hsol =>
    simp only [and_eq_true] at h
    obtain ⟨⟨hreport, hfirst⟩, h⟩ := h
    split at h
    next inv hinv =>
      obtain ⟨_, hvalid⟩ := exists_of_isOk hvalid
      obtain ⟨report, hreport⟩ := exists_of_isOk hreport
      obtain ⟨first, hfirst⟩ := exists_of_isOk hfirst
      have hexported : InvariantExport.ofSolution g sol = .ok ⟨first.toList ++ [inv]⟩ := by
        unfold InvariantExport.ofSolution
        rw [invariantNodes_one_loop hhead hentry]
        cases first <;> simp [filterMapM_cons, hfirst, hinv]
      refine ⟨⟨sol, report, some ⟨first.toList ++ [inv]⟩⟩, _, inv, ?_, rfl, by simp,
        (invariantOf?_eq_some hinv).1, beq_iff_eq.1 h⟩
      simp [analyze, AnalysisResult.ofSolution, AnalysisError.ofFault_eq_ok, hvalid, hsol, hreport,
        hexport, hexported]
    next => cases h
  next => cases h

end OneLoop

def countUp : List FunctionDef := [
  ⟨"main", [], [⟨"x", .int⟩], .block [
    .act (.assign (.var "x") (.const 0)),
    .loop (.cmp .lt (.read (.var "x")) (.const 10))
      (.act (.assign (.var "x") (.arith .add (.read (.var "x")) (.const 2))))]⟩]

/-- Two facts are exported at the head of the loop of `countUp`, and both hold whenever a run is
there. -/
theorem invariants_sound_countUp :
    ∃ g result, Graph.ofFunctions {} countUp = .ok g ∧
      analyze g { exportInvariants := true } = .ok result ∧
      ∃ exported, result.invariants = some exported ∧ ∃ inv ∈ exported.invariants,
        inv.node = 3 ∧ inv.facts = ["x <= 11", "x >= 0"] ∧
        ∀ machine, Machine.Reaches g { exportInvariants := true } machine → machine.now.node = 3 →
          ∀ text ∈ ["x <= 11", "x >= 0"], ∃ c n, ∃ clause : Clause, text = clause.text c.text ∧
            machine.now.content? false c = some n ∧ clause.holds n = true := by
  obtain ⟨g, hg, hok⟩ := exists_of_any (x := Graph.ofFunctions {} countUp) (p := fun g =>
    exportsAtLoop g { exportInvariants := true } 3 ["x <= 11", "x >= 0"]) (by decide +kernel)
  obtain ⟨result, exported, inv, hresult, hexported, hinv, hnode, hfacts⟩ :=
    analyze_of_exportsAtLoop rfl hok
  refine ⟨g, result, hg, hresult, exported, hexported, inv, hinv, hnode, hfacts, ?_⟩
  intro machine hmachine hat text htext
  obtain ⟨exported', hexported', hsound⟩ := invariants_sound rfl rfl (by decide) (by decide) hg rfl
    rfl hresult
  cases hexported.symm.trans hexported'
  obtain ⟨-, hall⟩ := (hsound machine hmachine).2 inv hinv (hnode.trans hat.symm)
  obtain ⟨c, n, clause, htext, -, hn, hholds, -⟩ := hall text (hfacts ▸ htext)
  exact ⟨c, n, clause, htext, hn, hholds⟩

def hidesGlobal : List FunctionDef := [
  ⟨"main", [], [⟨"x", .int⟩], .block [
    .act (.assign (.var "x") (.const 5)),
    .loop (.cmp .ne .unknown (.const 0)) (.block [])]⟩]

/-- Two facts that contradict each other are exported at the head of the loop of `hidesGlobal`: one
about the global and one about the local, under one name.  Under that name a run reads 5 there. -/
theorem hidesGlobal_contradictory :
    ∃ g result exported inv, Graph.ofFunctions
        { globals := .ofList [("x", ⟨⟨"x", .int⟩, [([], 3)]⟩)] } hidesGlobal = .ok g ∧
      analyze g { exportInvariants := true } = .ok result ∧ result.invariants = some exported ∧
      inv ∈ exported.invariants ∧ inv.facts = ["x == 3", "x == 5"] ∧
      ∃ machine, Machine.Reaches g { exportInvariants := true } machine ∧
        machine.now.node = inv.node ∧ machine.now.read g "x" = 5 := by
  obtain ⟨g, hg, hok⟩ := exists_of_any
    (x := Graph.ofFunctions { globals := .ofList [("x", ⟨⟨"x", .int⟩, [([], 3)]⟩)] } hidesGlobal)
    (p := fun g =>
      (g.function? "main").any (fun f => f.entry == 0 && f.varType? "x" == some .int) &&
      g.edges[0]? == some ⟨0, 2, .assign (.var "x") (.const 5)⟩ &&
      g.edges[1]? == some ⟨2, 3, .skip⟩ &&
      exportsAtLoop g { exportInvariants := true } 3 ["x == 3", "x == 5"]) (by decide +kernel)
  simp only [and_eq_true, beq_iff_eq, Option.any_eq_true] at hok
  obtain ⟨⟨⟨⟨f, hf, hentry, htype⟩, hassign⟩, hskip⟩, hok⟩ := hok
  obtain ⟨result, exported, inv, hresult, hexported, hinv, hnode, hfacts⟩ :=
    analyze_of_exportsAtLoop rfl hok
  have hlocal : g.isLocalIn "main" "x" = true := by simp [Graph.isLocalIn, hf, htype]
  have hstart : Machine.Reaches g { exportInvariants := true }
      ⟨⟨"main", f.entry, fun _ => 0, 0, g.startGlobals⟩, []⟩ := .start mem_cons_self hf
  have hset := (hstart.step (.act hassign hentry.symm (.assign ⟨rfl, by decide⟩))).step
    (.act hskip rfl .skip)
  exact ⟨g, result, exported, inv, hg, hresult, hexported, hinv, hfacts, _, hset, hnode.symm,
    by simp [Moment.read, Moment.write, hlocal]⟩

end StaticAnalysis
