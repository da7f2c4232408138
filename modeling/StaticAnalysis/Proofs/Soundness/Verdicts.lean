import StaticAnalysis.Analyzer
import StaticAnalysis.Proofs.Soundness.Solutions

/-!
# Verdicts are sound

The verdicts of a report come from a replay of all edges against the solution.  A check is decided
at every point that has a state, so also at the point of every activation of a run, whose state
covers it; and verdicts of several contexts are combined to one that speaks for all of them.

Main statement: on sequential integer programs, what `analyze` reports as proven holds in every run,
and what it reports as refuted fails in every run.
-/

namespace StaticAnalysis

open List SortedMap

/-! ## Verdicts -/

namespace Verdict

/-- A verdict speaks for an outcome of a check. -/
def Admits (v : Verdict) (b : Bool) : Prop := (v = .proven → b = true) ∧ (v = .refuted → b = false)

lemma admits_ofTruth {t : Truth} {b : Bool} (h : t.Admits b) : (ofTruth t).Admits b := by
  rcases h with rfl | rfl
  · exact ⟨by simp [ofTruth], by simp [ofTruth]⟩
  · cases b <;> exact ⟨by simp [ofTruth, Truth.ofBool], by simp [ofTruth, Truth.ofBool]⟩

lemma Admits.combine_left {v : Verdict} {b : Bool} (h : v.Admits b) (w : Verdict) :
    (v.combine w).Admits b := by
  unfold combine
  split
  · exact h
  · exact ⟨by simp, by simp⟩

lemma Admits.combine_right {w : Verdict} {b : Bool} (h : w.Admits b) (v : Verdict) :
    (v.combine w).Admits b := by
  unfold combine
  split
  next hvw => exact hvw ▸ h
  · exact ⟨by simp, by simp⟩

end Verdict

/-! ## Replaying -/

namespace Replay

/-- What a replay finds: the states and the shared values of a solution.  What it contributes is not
looked at again. -/
def contract (sol : Solution) : Contract where
  answers k v := v = sol.globals.value k ∧ v.Numeric
  states p o := o = sol.states.get? p ∧ ∀ a, o = some a → a.Numeric
  alike _ _ := False
  offers _ _ := True
  accepted _ _ := True

lemma result_of_run {α : Type} {s : Solver} (hs : s.Numeric) {x : Step α} {Q : α → Prop}
    (hx : x.Meets (contract s.solution) Q) {r r' : Replay} (hr : r.solution = s.solution) {a : α}
    (h : x.run r = .ok a r') : Q a := by
  induction x generalizing r with
  | done b =>
    cases h
    exact hx
  | fault f => cases h
  | lookup k next ih =>
    refine ih _ (hx _ ⟨?_, ?_⟩) hr h
    · exact congrArg (fun sol : Solution => sol.globals.value k) hr
    · rw [hr]
      exact hs.globals k
  | stateAt q next ih =>
    refine ih _ (hx.2 _ ⟨?_, fun b hb => ?_⟩) hr h
    · exact congrArg (fun sol : Solution => sol.states.get? q) hr
    · change r.solution.states.get? q = some b at hb
      rw [hr] at hb
      exact hs.states q b hb
  | contribute k v next ih =>
    obtain ⟨r₁, hr₁, h⟩ := Step.run_contribute h
    refine ih (hx.2 trivial) ?_ h
    cases hr₁
    unfold collect
    split <;> exact hr

end Replay

namespace Report

open Step

variable {C : Contract} {g : Graph} {settings : Settings} {m : Moment} {found : Findings}
  {function : String} {P : Bool → Prop} {check id : Nat} {c : Cond} {p : Point} {s : State} {e : Edge}
  {states : SortedMap Point State}

/-- A check was decided, and the verdict speaks for some outcomes. -/
def Findings.SpeaksFor (found : Findings) (check : Nat) (P : Bool → Prop) : Prop :=
  ∃ v, found.checks.get? check = some v ∧ ∀ b, P b → v.Admits b

lemma Findings.SpeaksFor.addVerdict (h : found.SpeaksFor check P) (check' : Nat) (v : Verdict) :
    Findings.SpeaksFor { found with checks := addVerdict found.checks check' v } check P := by
  obtain ⟨w, hw, hadmits⟩ := h
  unfold Findings.SpeaksFor Report.addVerdict
  simp only [get?_insert]
  split
  next heq =>
    subst heq
    rw [hw]
    exact ⟨_, rfl, fun b hb => (hadmits b hb).combine_left v⟩
  next => exact ⟨w, hw, hadmits⟩

lemma Findings.speaksFor_addVerdict {v : Verdict} (h : ∀ b, P b → v.Admits b) :
    Findings.SpeaksFor { found with checks := addVerdict found.checks check v } check P := by
  unfold Findings.SpeaksFor Report.addVerdict
  rw [get?_insert_self]
  exact ⟨_, rfl, fun b hb => (h b hb).combine_right _⟩

lemma keeps_replayEdge (id : Nat) (e : Edge) :
    (replayEdge g settings function p s found id e).Meets .free fun r =>
      found.SpeaksFor check P → r.SpeaksFor check P := by
  unfold replayEdge
  refine (meets_free _).bind fun _ _ => ?_
  split
  next => exact (meets_free _).bind fun _ _ => meets_pure fun h => h.addVerdict _ _
  all_goals exact meets_pure fun h => h

lemma keeps_replayPoint :
    (replayPoint g settings found p s).Meets .free fun r =>
      found.SpeaksFor check P → r.SpeaksFor check P := by
  unfold replayPoint
  split
  · exact meets_pure fun h => h
  refine (meets_free _).bind fun function _ => ?_
  refine meets_foldlM (P := fun r : Findings => found.SpeaksFor check P → r.SpeaksFor check P)
    (fun r ie _ hr => ?_) fun h => h
  exact (keeps_replayEdge ie.1 ie.2).mono fun r' hr' h => hr' (hr h)

/-- If the replay of an edge decides a check, so does the replay of all points. -/
lemma meets_replay_of_edge (halike : ∀ s t, ¬ C.alike s t) (hoffers : ∀ key v, C.offers key v)
    (hp : states.get? p = some s) (hs : s.isBottom = false) (hnode : g.Belongs p.node function)
    (he : g.edges[id]? = some e) (hsrc : e.src = p.node)
    (hedge : ∀ found, (replayEdge g settings function p s found id e).Meets C (·.SpeaksFor check P)) :
    (replay g settings states).Meets C (·.SpeaksFor check P) := by
  have hpoint : ∀ found, (replayPoint g settings found p s).Meets C (·.SpeaksFor check P) := by
    intro found
    unfold replayPoint
    rw [if_neg (by simp [hs]), hnode.functionOf, ok_bind]
    refine (meets_foldlM_visit (P := fun _ => True) (Q := (·.SpeaksFor check P))
      (hsrc ▸ Graph.mem_edgesFrom he) (fun r ie _ _ => ?_) (fun r _ => ?_) trivial).mono fun r hr =>
      hr.2
    · exact ((keeps_replayEdge ie.1 ie.2).of_free halike hoffers).mono fun r' hr' => ⟨trivial, hr'⟩
    · exact (hedge r).mono fun r' hr' => ⟨trivial, hr'⟩
  refine (meets_foldlM_visit (P := fun _ => True) (Q := (·.SpeaksFor check P))
    (get?_eq_some_iff.1 hp) (fun r ps _ _ => ?_) (fun r _ => ?_) trivial).mono fun r hr => hr.2
  · exact (keeps_replayPoint.of_free halike hoffers).mono fun r' hr' => ⟨trivial, hr'⟩
  · exact (hpoint r).mono fun r' hr' => ⟨trivial, hr'⟩

lemma decides_replay {sol : Solution} (hC : (Replay.contract sol).Numeric) (hg : g.Sequential)
    (hrel : settings.relation = .none) (hstates : ∀ p s, states.get? p = some s → s.Numeric)
    (hp : states.get? p = some s) (hm : g.Belongs p.node m.function)
    (hcov : s.Covers p.context.isModular m) (he : g.edges[id]? = some e) (hsrc : e.src = p.node)
    (hcheck : e.action = .check check c) :
    (replay g settings states).Meets (Replay.contract sol)
      (·.SpeaksFor check (c.Outcome (m.read g))) := by
  have hs := hstates p s hp
  refine meets_replay_of_edge (fun _ _ h => h) (fun _ _ => trivial) hp
    (by simp [hs.flat.isBottom_eq, hcov.reachable]) hm he hsrc fun found => ?_
  have hmem : e ∈ g.edges.toList := mem_of_getElem? (by simpa using he)
  have ha := hg.action e hmem
  unfold replayEdge
  refine (meets_transfer hC hg hrel hmem hs m).bind fun _ _ => ?_
  rw [hcheck] at ha ⊢
  refine Meets.bind (State.decides_check hC ⟨hrel, hg⟩ hs rfl ha) fun t ht => meets_pure ?_
  exact Findings.speaksFor_addVerdict fun b hb => Verdict.admits_ofTruth (ht hcov b hb)

/-! ## Reports -/

lemma mem_checks {sol : Solution} {report : Report} (h : ofSolution g settings sol = .ok report) :
    ∃ found r, (replay g settings sol.states).run ({ solution := sol } : Replay) = .ok found r ∧
      (∀ result ∈ report.checks, result.verdict = (found.checks.get? result.id).getD .proven ∧
        result.reachable = (found.checks.get? result.id).isSome) ∧
      ∀ (id : Nat) (e : Edge) (check : Nat) (c : Cond), g.edges[id]? = some e →
        e.action = .check check c → ∃ result ∈ report.checks, result.id = check := by
  unfold ofSolution at h
  split at h
  · cases h
  next found r hrun =>
    obtain ⟨checks, hchecks, h⟩ := Fault.bind_eq_ok.1 h
    cases h
    refine ⟨found, r, hrun, fun result hresult => ?_, fun id e check c he hcheck => ?_⟩
    · obtain ⟨⟨id, node, c⟩, -, hresult⟩ := Fault.mem_of_mapM hchecks hresult
      obtain ⟨_, -, hresult⟩ := Fault.bind_eq_ok.1 hresult
      cases hresult
      exact ⟨rfl, rfl⟩
    · have hmem : (check, e.src, c) ∈ g.checks := by
        refine mem_filterMap.2 ⟨e, mem_of_getElem? (by simpa using he), ?_⟩
        rw [hcheck]
      obtain ⟨result, hresult, hid⟩ := Fault.exists_of_mapM hchecks hmem
      obtain ⟨_, -, hid⟩ := Fault.bind_eq_ok.1 hid
      cases hid
      exact ⟨_, hresult, rfl⟩

end Report

variable {result : AnalysisResult}

lemma solution_of_analyze {g : Graph} {settings : Settings} (h : analyze g settings = .ok result) :
    (Solver.new g settings).solve = .ok result.solution ∧
    Report.ofSolution g settings result.solution =
    .ok result.report := by
  obtain ⟨_, -, h⟩ := Fault.bind_eq_ok.1 h
  obtain ⟨sol, hsol, h⟩ := Fault.bind_eq_ok.1 h
  obtain ⟨report, hreport, h⟩ := Fault.bind_eq_ok.1 (AnalysisError.ofFault_eq_ok.1 h)
  split at h
  all_goals
    obtain ⟨invariants, -, h⟩ := Fault.bind_eq_ok.1 h
    cases h
    exact ⟨hsol, hreport⟩

/-- Verdicts are sound on sequential integer programs.  Each check of the program is in the report.
Where a run is about to take the check, the report says that it is reachable; what it says to be
proven holds there, and what it says to be refuted fails. -/
theorem analyze_sound {base g : Graph} {functions : List FunctionDef} {settings : Settings}
    (hedges : base.edges = #[]) (hfunctions : base.functions = .empty)
    (hglobals : base.hasIntegerGlobals = true) (hseq : ∀ f ∈ functions, f.isSequential = true)
    (hbuilt : Graph.ofFunctions base functions = .ok g) (hrelation : settings.relation = .none)
    (h : analyze g settings = .ok result) {id check : Nat} {e : Edge} {c : Cond}
    (he : g.edges[id]? = some e) (hcheck : e.action = .check check c) :
    (∃ r ∈ result.report.checks, r.id = check) ∧
    ∀ r ∈ result.report.checks, r.id = check →
      ∀ machine, Machine.Reaches g settings machine → machine.now.node = e.src →
      r.reachable = true ∧ ∀ b, c.Outcome (machine.now.read g) b →
        (r.verdict = .proven → b = true) ∧ (r.verdict = .refuted → b = false) := by
  have hg := Graph.sequential_ofFunctions hedges hfunctions hglobals hseq hbuilt
  obtain ⟨hsol, hreport⟩ := solution_of_analyze h
  generalize result.solution = sol at hsol hreport
  obtain ⟨found, r', hrun, hresults, hall⟩ := Report.mem_checks hreport
  refine ⟨hall id e check c he hcheck, fun r hr hid machine hmachine hnode => ?_⟩
  obtain ⟨s, hs, rfl⟩ := Solver.covering_solve hg hrelation hsol
  obtain ⟨context, o, hocc, -⟩ := Occurs.of_reaches hmachine
  obtain ⟨a, ha, hcov⟩ := (hs.describes context o machine.now hocc).state
  have hdecides := Replay.result_of_run hs.numeric
    (Report.decides_replay ⟨fun _ _ h => h.2, fun _ _ h => h.2, fun _ _ h => h,
      fun _ _ _ _ => trivial⟩ hg hrelation hs.numeric.states ha (hocc.belongs hg) hcov he
      hnode.symm hcheck) rfl hrun
  obtain ⟨v, hv, hadmits⟩ := hdecides
  obtain ⟨hverdict, hreachable⟩ := hresults r hr
  rw [hid, hv] at hverdict hreachable
  exact ⟨hreachable, fun b hb => hverdict ▸ hadmits b hb⟩

/-- A global is counted up by calls until it is large; the function that counts is analysed without
its callers. -/
def addUntil : List FunctionDef := [
  ⟨"add", [⟨"step", .int⟩], [], .block [
    .act (.assign (.var "total") (.arith .add (.read (.var "total")) (.read (.var "step")))),
    .ret (some (.read (.var "total")))]⟩,
  ⟨"main", [], [⟨"x", .int⟩], .block [
    .check (.cmp .eq (.read (.var "total")) (.const 3)),
    .act (.assign (.var "x") (.const 0)),
    .loop (.cmp .lt (.read (.var "x")) (.const 10))
      (.act (.call (some (.var "x")) "add" [.const 2])),
    .check (.cmp .lt (.read (.var "x")) (.const 10))]⟩]

/-- The first check of `addUntil` is proven, and holds in the run that has just started; the second
one is refuted, so in every run that comes to it `x` is at least 10. -/
theorem analyze_sound_addUntil :
    ∃ g result, Graph.ofFunctions { globals := .ofList [("total", ⟨⟨"total", .int⟩, [([], 3)]⟩)] }
        addUntil = .ok g ∧
      analyze g { modularity := { auto := true } } = .ok result ∧
      result.verdicts = [.proven, .refuted] ∧
      (∃ machine, Machine.Reaches g { modularity := { auto := true } } machine ∧
        machine.now.node = 4 ∧ machine.now.globals "total" = 3) ∧
      ∀ machine, Machine.Reaches g { modularity := { auto := true } } machine →
        machine.now.node = 10 →
        ∀ b, Cond.Outcome (machine.now.read g) (.cmp .lt (.read (.var "x")) (.const 10)) b →
          b = false := by
  obtain ⟨g, hg, hok⟩ := Fault.exists_of_any
    (x := Graph.ofFunctions { globals := .ofList [("total", ⟨⟨"total", .int⟩, [([], 3)]⟩)] } addUntil)
    (p := fun g => g.edges[10]? == some ⟨10, 12,
      .check 1 (.cmp .lt (.read (.var "x")) (.const 10))⟩ &&
      (g.function? "main").any (·.entry == 4) && g.startGlobals "total" == 3 &&
      (analyze g { modularity := { auto := true } }).toOption.any fun result =>
        result.verdicts == [.proven, .refuted] &&
          result.report.checks.all fun r => r.id == 0 || r.verdict == .refuted) (by decide +kernel)
  simp only [Bool.and_eq_true, beq_iff_eq, Option.any_eq_true _ (g.function? _)] at hok
  obtain ⟨⟨⟨hedge, f, hf, hentry⟩, htotal⟩, hok⟩ := hok
  obtain ⟨result, hresult, hok⟩ := Fault.exists_of_any hok
  simp only [Bool.and_eq_true, beq_iff_eq, all_eq_true, Bool.or_eq_true] at hok
  refine ⟨g, result, hg, hresult, hok.1, ?_, fun machine hmachine hnode b hb => ?_⟩
  · refine ⟨⟨⟨"main", f.entry, fun _ => 0, 0, g.startGlobals⟩, []⟩, ?_, hentry, htotal⟩
    exact .start mem_cons_self hf
  · obtain ⟨⟨r, hr, hid⟩, hsound⟩ := analyze_sound rfl rfl (by decide)
      (by decide) hg rfl hresult hedge rfl
    have hrefuted : r.verdict = .refuted := (hok.2 r hr).resolve_left (by simp [hid])
    exact ((hsound r hr hid machine hmachine hnode).2 b hb).2 hrefuted

end StaticAnalysis
