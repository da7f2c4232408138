import StaticAnalysis.Proofs.Soundness.MemoryActions
import StaticAnalysis.Proofs.Soundness.Verdicts

/-!
# Runs of an activation are depicted

A solution of which no equation asks for more is followed by runs: if the state of a point depicts
the memory of an activation that is there, and the activation takes an edge, the state of the next
point depicts its memory then.

Main statement: an activation that the solution depicts once is depicted until it calls, and the
report speaks for the checks that it comes to.  The one thing asked of the memory is that a variable
is the name of one object, which recursion breaks, as the last example shows.
-/

namespace StaticAnalysis

open List Memory

namespace Memory

variable {ω : Type} {m m' : Memory ω} {vars : String → ω} {g : Graph} {function : String}

/-- An activation of a function gets from a node to another along edges of the function, none of
which is a call. -/
inductive Proceeds (g : Graph) (settings : Settings) (function : String) (context : Context)
    (vars : String → ω) (node : Nat) (m : Memory ω) : Nat → Memory ω → Prop
  | here : Proceeds g settings function context vars node m node m
  | edge {n n' : Memory ω} {id : Nat} {e : Edge}
    (h : Proceeds g settings function context vars node m e.src n) (he : g.edges[id]? = some e)
    (hdst : g.Belongs e.dst function)
    (hact : n.Acts (.onEdge g settings function context id) vars e.action n') :
    Proceeds g settings function context vars node m e.dst n'

lemma Hosts.acts {env : Env} {a : Action} (h : m.Hosts g function vars)
    (hact : m.Acts env vars a m') : m'.Hosts g function vars := by
  have hbase := hact.base
  refine ⟨?_, fun x => ?_⟩
  · rw [Distinct, hbase]
    exact h.distinct
  · rw [cell, hbase]
    exact h.names x

end Memory

/-! ## Equations -/

namespace Solver

open Step State

variable {α : Type} {s : Solver} {x : Step α} {Q : α → Prop} {a : α} {p : Point} {g : Graph}
  {settings : Settings} {function : String} {id : Nat} {e : Edge}

/-- A solver that is asked and not changed. -/
def frozen (s : Solver) : Contract where
  answers k v := v = s.globals.value k
  states p o := o = s.states.get? p
  alike _ _ := False
  offers _ _ := True
  accepted _ _ := True

lemma Flat.frozen (hs : s.Flat) (hx : x.Meets .flat Q) : x.Meets s.frozen Q := by
  induction x with
  | done b => exact hx
  | fault f => trivial
  | lookup k next ih =>
    rintro v rfl
    exact ih _ (hx _ (hs.globals k))
  | stateAt q next ih =>
    refine ⟨fun _ _ => False.elim, ?_⟩
    rintro o rfl
    exact ih _ (hx.2 _ fun b => hs.states q b)
  | contribute k v next ih => exact ⟨trivial, fun _ => ih (hx.2 trivial)⟩

lemma Settled.result_frozen (hx : x.Meets s.frozen Q) (h : Settled s p x a) : Q a := by
  induction x with
  | done b => exact h ▸ hx
  | fault f => exact absurd h id
  | lookup k next ih => exact ih _ (hx _ rfl) h.2
  | stateAt q next ih => exact ih _ (hx.2 _ rfl) h.2
  | contribute k v next ih => exact ih (hx.2 trivial) h.2

lemma meets_joinEdge {acc : State} (hacc : acc.Flat) {Q : State → Prop} (hQ : ∀ t, Q t → t.Flat)
    (htransfer : ∀ before, s.states.get? ⟨e.src, p.context⟩ = some before →
      (transfer g settings function p.context id e before).Meets s.frozen Q) :
    (joinEdge g settings function p acc id e).Meets s.frozen fun r =>
      r.Flat ∧ acc.le r = .ok true ∧ ∀ before, s.states.get? ⟨e.src, p.context⟩ = some before →
        before.isBottom = false → ∃ t, Q t ∧ t.le r = .ok true := by
  unfold joinEdge
  refine meets_stateAt (fun _ _ => False.elim) ?_
  rintro o rfl
  cases hbefore : s.states.get? ⟨e.src, p.context⟩ with
  | none => exact meets_pure ⟨hacc, le_self hacc, nofun⟩
  | some before =>
    dsimp only
    split
    next hbottom =>
      refine meets_pure ⟨hacc, le_self hacc, ?_⟩
      rintro _ ⟨⟩ hbottom'
      simp [hbottom'] at hbottom
    next =>
      refine (htransfer before hbefore).bind fun t ht => meets_lift fun r hr => ?_
      obtain ⟨hflat, haccr, htr⟩ := upperBound_join hacc (hQ t ht) hr
      exact ⟨hflat, haccr, fun _ _ _ => ⟨t, ht, htr⟩⟩

variable {ω : Type} {context : Context} {before : State}

lemma depicts_evaluate {m m' : Memory ω} {vars : String → ω} (hs : s.Flat) (hg : g.Scalar)
    (hrel : settings.relation = .none) (hcontext : context.isModular = false)
    (he : g.edges[id]? = some e) (hdst : g.Belongs e.dst function)
    (hbefore : s.states.get? ⟨e.src, context⟩ = some before) (hplain : before.Plain)
    (hd : before.Depicts m) (hm : m.Hosts g function vars)
    (hact : m.Acts (.onEdge g settings function context id) vars e.action m') :
    (evaluate g settings ⟨e.dst, context⟩).Meets s.frozen fun r => r.Flat ∧ r.Depicts m' := by
  unfold evaluate
  rw [hdst.functionOf, ok_bind]
  refine (hs.frozen flat_entryState).bind fun entry hentry => ?_
  refine Meets.bind (Q := fun r => r.Flat ∧ r.Depicts m') ?_ fun r hr => ?_
  · refine meets_foldlM_visit (P := State.Flat) (Graph.mem_edgesInto he) ?_ ?_ hentry
    · rintro acc ⟨id', e'⟩ hmem hacc
      have htransfer : ∀ before', s.states.get? ⟨e'.src, context⟩ = some before' →
          (transfer g settings function context id' e' before').Meets s.frozen State.Flat :=
        fun before' hbefore' => hs.frozen (flat_transfer hg hrel (Graph.mem_edges_of_edgesInto hmem)
          (hs.states _ before' hbefore'))
      refine (meets_joinEdge (p := ⟨e.dst, context⟩) hacc (fun _ ht => ht) htransfer).mono ?_
      rintro r ⟨hr, hle, -⟩
      exact ⟨hr, fun hdepicts => hdepicts.le hacc hr hle⟩
    · intro acc hacc
      have htransfer : ∀ before', s.states.get? ⟨e.src, context⟩ = some before' →
          (transfer g settings function context id e before').Meets s.frozen
            fun t => t.Plain ∧ t.Depicts m' := by
        intro before' hbefore'
        cases hbefore.symm.trans hbefore'
        exact depicts_transfer hg hrel hcontext (mem_of_getElem? (by simpa using he)) hm hplain hd
          hact
      refine (meets_joinEdge (p := ⟨e.dst, context⟩) hacc (fun _ ht => ht.1.flat) htransfer).mono ?_
      rintro r ⟨hr, -, hvisit⟩
      obtain ⟨t, ⟨ht, hdepicts⟩, hle⟩ := hvisit before hbefore
        (by simp [hplain.flat.isBottom_eq, hd.reachable])
      exact ⟨hr, hdepicts.le ht.flat hr hle⟩
  · rw [if_neg (by simp [hcontext])]
    exact meets_pure hr

/-! ## Solutions -/

lemma Consistent.depicts_edge {m m' : Memory ω} {vars : String → ω} (h : s.Consistent)
    (hempty : ∀ p, p ∉ s.worklist) (hcontext : context.isModular = false)
    (he : s.graph.edges[id]? = some e) (hdst : s.graph.Belongs e.dst function)
    (hbefore : s.states.get? ⟨e.src, context⟩ = some before)
      (hsingle : before.multithreaded = false)
    (hd : before.Depicts m) (hm : m.Hosts s.graph function vars)
    (hact : m.Acts (.onEdge s.graph s.settings function context id) vars e.action m') :
    ∃ after, s.states.get? ⟨e.dst, context⟩ = some after ∧ after.Depicts m' := by
  have hflat := h.flat.states _ before hbefore
  have hsuccessor : e.dst ∈ s.graph.successors e.src :=
    mem_map.2 ⟨(id, e), Graph.mem_edgesFrom he, rfl⟩
  have hknown := h.closed.successors _ before hbefore hd.reachable e.dst hsuccessor
  obtain ⟨after, hafter⟩ := hknown.resolve_left (hempty _)
  obtain ⟨r, after', hset, hafter', hle⟩ := (h.stable _ after hafter).resolve_left (hempty _)
  cases hafter.symm.trans hafter'
  obtain ⟨hr, hdepicts⟩ := hset.result_frozen
    (depicts_evaluate h.flat h.graph h.settings hcontext he
    hdst hbefore ⟨hsingle, hflat⟩ hd hm hact)
  exact ⟨after, hafter, hdepicts.le hr (h.flat.states _ after hafter) hle⟩

lemma Consistent.depicts_run {m n : Memory ω} {vars : String → ω} {node node' : Nat}
    (h : s.Consistent) (hempty : ∀ p, p ∉ s.worklist)
    (hsingle : ∀ p a, s.states.get? p = some a → a.multithreaded = false)
    (hcontext : context.isModular = false) (hnode : s.graph.Belongs node function)
    (hm : m.Hosts s.graph function vars) (hbefore : s.states.get? ⟨node, context⟩ = some before)
    (hd : before.Depicts m) (hrun : m.Proceeds s.graph s.settings function context vars node node' n) :
    s.graph.Belongs node' function ∧ n.Hosts s.graph function vars ∧
      ∃ after, s.states.get? ⟨node', context⟩ = some after ∧ after.Depicts n := by
  induction hrun with
  | here => exact ⟨hnode, hm, before, hbefore, hd⟩
  | edge _ he hdst hact ih =>
    obtain ⟨-, hn, between, hbetween, hdepicts⟩ := ih
    refine ⟨hdst, hn.acts hact, ?_⟩
    exact h.depicts_edge hempty hcontext he hdst hbetween (hsingle _ _ hbetween) hdepicts hn hact

end Solver

/-! ## Verdicts -/

namespace Report

open Step State

variable {g : Graph} {settings : Settings} {function : String} {p : Point} {s : State} {check : Nat}
  {P : Bool → Prop} {found : Findings}

section Depicted

variable {ω : Type} {n : Memory ω} {vars : String → ω} {id : Nat} {e : Edge} {c : Cond}

/-- At a point whose state depicts a memory, a check is decided for its outcomes in that memory. -/
lemma speaksFor_replay (hg : g.Scalar) (hrel : settings.relation = .none)
    (hcontext : p.context.isModular = false) (hs : s.Plain) (hd : s.Depicts n)
    (hn : n.Hosts g function vars) (hnode : g.Belongs p.node function) (he : g.edges[id]? = some e)
    (hsrc : e.src = p.node) (hcheck : e.action = .check check c) {states : SortedMap Point State}
    (hp : states.get? p = some s) :
    (replay g settings states).Meets .free fun r => r.SpeaksFor check (c.Results n vars) := by
  refine meets_replay_of_edge (fun _ _ h => h) (fun _ _ => trivial) hp
    (by simp [hs.flat.isBottom_eq, hd.reachable]) hnode he hsrc fun found => ?_
  have hc : c.isScalar = true := by
    have ha := hg.action e (mem_of_getElem? (by simpa using he))
    rwa [hcheck] at ha
  have henv : (Env.onEdge g settings function p.context id).Whole := ⟨hcontext, hrel⟩
  unfold replayEdge
  refine (meets_free _).bind fun _ _ => ?_
  rw [hcheck]
  refine (Reading.judges_check (refines_memory henv hn) hs hc).bind fun t ht => meets_pure ?_
  exact Findings.speaksFor_addVerdict fun b hb => Verdict.admits_ofTruth (ht hd b hb)

end Depicted
end Report

namespace AnalysisResult

/-- Whether the program has one thread wherever it gets. -/
def isSingleThreaded (result : AnalysisResult) : Bool :=
  result.solution.states.entries.all fun ps => !ps.2.multithreaded

end AnalysisResult

/-- Activations are followed soundly while a variable is the name of one object.  If the solution
depicts the memory of an activation at one of its nodes, it does so wherever the activation gets
without calls, through whatever pointers it writes; and the report speaks for the checks that it
comes to. -/
theorem activation_sound {g : Graph} {settings : Settings} {result : AnalysisResult}
    (hscalar : g.isScalar = true) (hrelation : settings.relation = .none)
    (hrounds : settings.narrowingRounds = 0) (h : analyze g settings = .ok result)
    (hthreads : result.isSingleThreaded = true) {ω : Type} {function : String} {context : Context}
    {vars : String → ω} {m n : Memory ω} {node node' : Nat} {s : State}
    (hcontext : context.isModular = false) (hnode : g.Belongs node function)
    (hm : m.Hosts g function vars)
    (hs : result.solution.states.get? ⟨node, context⟩ = some s) (hd : s.Depicts m)
    (hrun : m.Proceeds g settings function context vars node node' n) :
    (∃ t, result.solution.states.get? ⟨node', context⟩ = some t ∧ t.Depicts n) ∧
      ∀ (id check : Nat) (e : Edge) (c : Cond), g.edges[id]? = some e → e.src = node' →
        e.action = .check check c → ∀ r ∈ result.report.checks, r.id = check → r.reachable = true ∧
          ∀ b, c.Results n vars b →
            (r.verdict = .proven → b = true) ∧ (r.verdict = .refuted → b = false) := by
  have hsingle p s (hs : result.solution.states.get? p = some s) : s.multithreaded = false := by
    simpa using all_eq_true.1 hthreads _ (SortedMap.get?_eq_some_iff.1 hs)
  obtain ⟨hsolve, hreport⟩ := solution_of_analyze h
  obtain ⟨solver, hsolver, hempty, rfl, rfl, hsol⟩ :=
    Solver.consistent_of_solve hscalar hrelation hrounds hsolve
  rw [hsol] at hs hsingle hreport ⊢
  obtain ⟨hnode', hn, t, ht, hdepicts⟩ :=
    hsolver.depicts_run hempty hsingle hcontext hnode hm hs hd hrun
  refine ⟨⟨t, ht, hdepicts⟩, fun id check e c he hsrc hcheck r hr hid => ?_⟩
  obtain ⟨found, replayed, hreplay, hresults, -⟩ := Report.mem_checks hreport
  obtain ⟨v, hv, hadmits⟩ := Step.Meets.run (Report.speaksFor_replay hsolver.graph hsolver.settings
    hcontext ⟨hsingle _ t ht, hsolver.flat.states _ t ht⟩ hdepicts hn hnode' he hsrc hcheck ht)
    hreplay
  obtain ⟨hverdict, hreachable⟩ := hresults r hr
  rw [hid, hv] at hverdict hreachable
  exact ⟨hreachable, fun b hb => hverdict ▸ hadmits b hb⟩

/-! ## Examples -/

lemma Env.ne_struct {env : Env} {lv : LValue} {t : Ty} (h : env.lvalueType? lv = some t)
    (ht : t = .int ∨ t = .ptr .int) (name : String) : env.lvalueType? lv ≠ some (.struct name) := by
  rcases ht with rfl | rfl <;> simp [h]

/-- The object of a variable, if there is one object for each name. -/
def Graph.object (g : Graph) (function x : String) : Base := (g.variableCell function x).base

/-- One object for each name; none of them holds anything yet. -/
def Memory.fresh : Memory Base := ⟨id, fun _ _ => none⟩

lemma hosts_fresh (g : Graph) (function : String) : fresh.Hosts g function (g.object function) where
  distinct _ _ h _ := h
  names x := by
    unfold Graph.object Graph.variableCell
    split <;> rfl

/-- A local is written through a pointer to it. -/
def throughPointer : Graph :=
  (Graph.ofFunctions {} [
    ⟨"main", [], [⟨"x", .int⟩, ⟨"p", .ptr .int⟩], .block [
      .act (.assign (.var "p") (.addrOf (.var "x"))),
      .act (.assign (.deref (.read (.var "p"))) (.const 5)),
      .check (.cmp .eq (.read (.var "x")) (.const 5))]⟩]).toOption.getD {}

/-- In `throughPointer` the check is proven, so it holds in every run; and there is one. -/
theorem activation_sound_throughPointer :
    ∃ result, analyze throughPointer { narrowingRounds := 0 } = .ok result ∧
      result.verdicts = [.proven] ∧
      (∃ n, Memory.fresh.Proceeds throughPointer { narrowingRounds := 0 } "main" ⟨.main,
        .callString []⟩ (throughPointer.object "main") 0 3 n ∧
        n.content (.localVar "main" "x") [] = some (.number 5)) ∧
      ∀ n, Memory.fresh.Proceeds throughPointer { narrowingRounds := 0 } "main"
        ⟨.main, .callString []⟩ (throughPointer.object "main") 0 3 n →
        ∀ b, Cond.Results n (throughPointer.object "main")
          (.cmp .eq (.read (.var "x")) (.const 5)) b → b = true := by
  have hok : (analyze throughPointer { narrowingRounds := 0 }).toOption.any (fun result =>
      result.verdicts == [.proven] && result.isSingleThreaded &&
      (result.solution.states.get? ⟨0, ⟨.main, .callString []⟩⟩).any (fun s => s.reachable) &&
      result.report.checks.any (fun r => r.id == 0 && r.verdict == .proven)) = true := by
    decide +kernel
  have hedge₀ : throughPointer.edges[0]? =
      some ⟨0, 2, .assign (.var "p") (.addrOf (.var "x"))⟩ := by decide +kernel
  have hedge₁ : throughPointer.edges[1]? =
      some ⟨2, 3, .assign (.deref (.read (.var "p"))) (.const 5)⟩ := by decide +kernel
  have hedge₂ : throughPointer.edges[2]? =
      some ⟨3, 4, .check 0 (.cmp .eq (.read (.var "x")) (.const 5))⟩ := by decide +kernel
  have hp : throughPointer.object "main" "p" = .localVar "main" "p" := by decide +kernel
  have hx : throughPointer.object "main" "x" = .localVar "main" "x" := by decide +kernel
  obtain ⟨result, hresult, hok⟩ := Fault.exists_of_any hok
  simp only [Bool.and_eq_true, beq_iff_eq, Option.any_eq_true, any_eq_true] at hok
  obtain ⟨⟨⟨hverdicts, hthreads⟩, s, hs, hreachable⟩, r, hr, hid, hproven⟩ := hok
  refine ⟨result, hresult, hverdicts, ?_, fun n hrun b hb => ?_⟩
  · let pointed := Memory.fresh.write (.localVar "main" "p") [] (.pointer (.localVar "main" "x") [])
    refine ⟨pointed.write (.localVar "main" "x") [] (.number 5), ?_, rfl⟩
    refine .edge (n := pointed) (.edge .here hedge₀ (by decide +kernel) ?_) hedge₁
      (by decide +kernel) ?_
    · refine .assign (Env.ne_struct (t := .ptr .int) (by decide +kernel) (.inr rfl))
        ⟨_, _, ⟨hx.symm, rfl⟩, rfl⟩ ⟨hp.symm, rfl⟩ (writes_write _ _ _ _)
    · refine .assign (Env.ne_struct (t := .int) (by decide +kernel) (.inl rfl)) ⟨rfl, by decide⟩
        ⟨⟨_, _, ⟨hp.symm, rfl⟩, rfl⟩, trivial⟩ (writes_write _ _ _ _)
  · have hd : s.Depicts Memory.fresh := ⟨hreachable,
      fun _ _ _ h => absurd h (by simp [Memory.fresh])⟩
    have hsound := activation_sound (by decide +kernel) rfl rfl hresult hthreads rfl
      (by decide +kernel) (hosts_fresh throughPointer "main") hs hd hrun
    exact ((hsound.2 2 0 _ _ hedge₂ rfl rfl r hr hid).2 b hb).1 hproven

/-- A function that calls itself with the address of its local in a global; the inner activation
writes to the local of the outer one, and then looks at its own. -/
def writesToCaller : Graph :=
  (Graph.ofFunctions { globals := .ofList [("q", ⟨⟨"q", .ptr .int⟩, []⟩)] } [
    ⟨"f", [], [⟨"x", .int⟩], .block [
      .act (.assign (.var "x") (.const 0)),
      .ite (.cmp .eq (.read (.var "q")) .null)
        (.block [.act (.assign (.var "q") (.addrOf (.var "x"))), .act (.call none "f" [])])
        (.block [.act (.assign (.deref (.read (.var "q"))) (.const 5)),
          .check (.cmp .eq (.read (.var "x")) (.const 5))])]⟩,
    ⟨"main", [], [], .act (.call none "f" [])⟩]).toOption.getD {}

/-- The memory of `writesToCaller` when `f` is entered for the second time.  The objects of the
outer activation are marked; `q` points to its `x`, which is zero. -/
def secondEntry : Memory (Base × Bool) where
  base := Prod.fst
  content o path :=
    if path = [] then
      if o = (.localVar "f" "x", true) then some (.number 0)
      else if o = (.globalVar "q", false) then
        some (.pointer (.localVar "f" "x", true) []) else none
    else none

lemma depicts_secondEntry {s : State} (hreachable : s.reachable)
    (hx : s.get (.ofLocal "f" "x") = .ofInt 0)
    (hq : s.get (.ofGlobal "q") = .addr (.cell (.ofLocal "f" "x"))) : s.Depicts secondEntry := by
  refine ⟨hreachable, fun o path d hd => ?_⟩
  unfold secondEntry at hd
  dsimp only at hd
  split_ifs at hd with hpath ho ho
  all_goals
    cases hd
    subst hpath ho
  · change secondEntry.Admits (s.get (.ofLocal "f" "x")) _
    rw [hx]
    exact .inl (.int (by decide))
  · change secondEntry.Admits (s.get (.ofGlobal "q")) _
    rw [hq]
    exact .inl (.target (SortedSet.mem_singleton.2 rfl))

/-- If several activations have objects under the name of a variable, a check may be proven that
fails. All else that is needed is so of the inner activation of `f` in `writesToCaller`. -/
theorem two_activations_confused :
    ∃ result s n, analyze writesToCaller { narrowingRounds := 0 } = .ok result ∧
      result.isSingleThreaded = true ∧
      result.solution.states.get? ⟨0, ⟨.main, .callString [10, 4]⟩⟩ = some s ∧
        s.Depicts secondEntry ∧
      (∀ x, secondEntry.cell (writesToCaller.object "f" x, false) [] =
        writesToCaller.variableCell "f" x) ∧
      secondEntry.Proceeds writesToCaller { narrowingRounds := 0 } "f" ⟨.main, .callString [10, 4]⟩
        (fun x => (writesToCaller.object "f" x, false)) 0 7 n ∧
      writesToCaller.edges[6]? = some ⟨7, 8, .check 0 (.cmp .eq (.read (.var "x")) (.const 5))⟩ ∧
      result.verdicts = [.proven] ∧
      Cond.Results n (fun x => (writesToCaller.object "f" x, false))
        (.cmp .eq (.read (.var "x")) (.const 5)) false := by
  have hok : (analyze writesToCaller { narrowingRounds := 0 }).toOption.any (fun result =>
      result.verdicts == [.proven] && result.isSingleThreaded &&
      (result.solution.states.get? ⟨0, ⟨.main, .callString [10, 4]⟩⟩).any (fun s =>
        s.reachable && s.get (.ofLocal "f" "x") == .ofInt 0 &&
        s.get (.ofGlobal "q") == .addr (.cell (.ofLocal "f" "x")))) = true := by
    decide +kernel
  have hedge₀ : writesToCaller.edges[0]? =
      some ⟨0, 2, .assign (.var "x") (.const 0)⟩ := by decide +kernel
  have hedge₂ : writesToCaller.edges[2]? =
      some ⟨2, 4, .guard (.cmp .ne (.read (.var "q")) .null)⟩ := by decide +kernel
  have hedge₅ : writesToCaller.edges[5]? =
      some ⟨4, 7, .assign (.deref (.read (.var "q"))) (.const 5)⟩ := by decide +kernel
  have hq : writesToCaller.object "f" "q" = .globalVar "q" := by decide +kernel
  have hx : writesToCaller.object "f" "x" = .localVar "f" "x" := by decide +kernel
  obtain ⟨result, hresult, hok⟩ := Fault.exists_of_any hok
  simp only [Bool.and_eq_true, beq_iff_eq, Option.any_eq_true] at hok
  obtain ⟨⟨hverdicts, hthreads⟩, s, hs, ⟨hreachable, hsx⟩, hsq⟩ := hok
  let entered := secondEntry.write (.localVar "f" "x", false) [] (.number 0)
  let written := entered.write (.localVar "f" "x", true) [] (.number 5)
  -- In the inner activation `x` is its own object, and `q` holds the pointer to that of the outer one.
  have hread : ∀ n : Memory (Base × Bool), n.content (.globalVar "q", false) [] =
      some (.pointer (.localVar "f" "x", true) []) → Expr.Computes n
        (fun x => (writesToCaller.object "f" x, false)) (.read (.var "q"))
        (.pointer (.localVar "f" "x", true) []) :=
    fun n hn => ⟨⟨_, _, ⟨congrArg (·, false) hq.symm, rfl⟩, hn⟩, trivial⟩
  refine ⟨result, s, written, hresult, hthreads, hs, depicts_secondEntry hreachable hsx hsq,
    fun x => ?_, ?_, by decide +kernel, hverdicts, ?_⟩
  · unfold Graph.object Graph.variableCell
    split <;> rfl
  · refine .edge (n := entered) (.edge (n := entered)
      (.edge .here hedge₀ (by decide +kernel) ?_) hedge₂
      (by decide +kernel) (.guard ?_)) hedge₅ (by decide +kernel) ?_
    · exact .assign (Env.ne_struct (t := .int) (by decide +kernel) (.inl rfl)) ⟨rfl, by decide⟩
        ⟨congrArg (·, false) hx.symm, rfl⟩ (writes_write _ _ _ _)
    · exact ⟨_, _, hread entered rfl, rfl, by simp [CmpOp.Compares]⟩
    · exact .assign (Env.ne_struct (t := .int) (by decide +kernel) (.inl rfl)) ⟨rfl, by decide⟩
        (hread entered rfl) (writes_write _ _ _ _)
  · refine ⟨.number 0, .number 5, ⟨⟨_, _, ⟨congrArg (·, false) hx.symm, rfl⟩, rfl⟩, ?_⟩,
      ⟨rfl, by decide⟩, by simp [CmpOp.Compares]⟩
    exact (by decide : Word.Admissible 0)

end StaticAnalysis
