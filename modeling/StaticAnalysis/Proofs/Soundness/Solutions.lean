import StaticAnalysis.Proofs.Soundness.Storage

/-!
# Solutions cover runs

A solver *describes* an activation if the state of its point covers it, the shared entry state
covers how it started, and, where its function is analysed without its callers, the summary of the
function accounts for what the activation changed and returns.

After the first ascent everything that occurs in a run is described, by induction on runs: each
point that a described activation leads to is known, hence evaluated and stable.  A descending step
keeps this up, as the state that it stores comes from an evaluation against states that cover all
runs.  The last ascent only enlarges what is stored.
-/

namespace StaticAnalysis

open Fault GlobalValue List Occurs SortedMap State Summary

/-! ## Activations -/

namespace Occurs

variable {g : Graph} {settings : Settings} {context : Context} {o m n ended : Moment} {x : String}

lemma node_write {k : Int} : (m.write g x k).node = m.node := by
  unfold Moment.write
  split <;> rfl

lemma node_resume {target : Option LValue} {node : Nat} :
    (m.resume g target ended node).node = node := by
  unfold Moment.resume
  split
  exacts [node_write, rfl]

lemma globals_enters {callee : String} {args : List Expr} (h : Moment.Enters g callee args m n) :
    n.globals = m.globals := by
  cases h
  rfl

lemma entry_enters {callee : String} {args : List Expr} (h : Moment.Enters g callee args m n) :
    ∃ f, g.function? callee = some f ∧ n.node = f.entry := by
  cases h with
  | intro hf _ => exact ⟨_, hf, rfl⟩

lemma belongs (hg : g.Sequential) (h : Occurs g settings context o m) :
    g.Belongs m.node m.function := by
  induction h with
  | start _ hf => exact hg.entry _ _ hf
  | act _ he hsrc h ih =>
    rw [← hsrc] at ih
    rw [function_acts h]
    exact hg.dst (mem_of_getElem? (by simpa using he)) ih
  | call _ _ _ _ h _ =>
    obtain ⟨f, hf, hnode⟩ := entry_enters h
    rw [hnode, function_enters h]
    exact hg.entry _ f hf
  | ret _ he hsrc _ _ _ _ _ ih _ =>
    rw [← hsrc] at ih
    rw [function_resume, node_resume]
    exact hg.dst (mem_of_getElem? (by simpa using he)) ih

lemma globals_write {k : Int} (hx : g.isGlobal x = false) {y : String} :
    (m.write g y k).globals x = m.globals x := by
  unfold Moment.write
  split
  · rfl
  next hy =>
    have hglobal : g.isGlobal y = true := by
      simp only [Graph.isLocalIn, Bool.or_eq_true, not_or] at hy
      simpa using hy.2
    have hne : x ≠ y := fun h => by rw [h, hglobal] at hx; cases hx
    exact Function.update_of_ne hne _ _

lemma globals_acts (hx : g.isGlobal x = false) {a : Action} (h : Moment.Acts g a m n) :
    n.globals x = m.globals x := by
  cases h <;> first | rfl | exact globals_write hx

lemma undeclared (hx : g.isGlobal x = false) (h : Occurs g settings context o m) :
    m.globals x = o.globals x := by
  induction h with
  | start => rfl
  | act _ _ _ h ih =>
    have hglobals := globals_acts hx h
    exact hglobals.trans ih
  | call => rfl
  | ret _ _ _ _ h _ _ _ ih ihended =>
    rw [globals_enters h, ih] at ihended
    unfold Moment.resume
    split
    · rw [globals_write hx]
      exact ihended
    · exact ihended

end Occurs

namespace Arrives

variable {C : Contract} {g : Graph} {settings : Settings} {context : Context} {id : Nat} {e : Edge}
  {m ended n : Moment}

lemma act (h : Moment.Acts g e.action m n) :
    Arrives C g settings context id e m m { n with node := e.dst } :=
  .inl ⟨n, h, rfl⟩

lemma ret {target : Option LValue} {callee : String} {args : List Expr}
    (ha : e.action = .call target callee args) {entered : Moment}
    (henters : Moment.Enters g callee args m entered)
    (h : Returning C g callee (settings.calleeContext context id m.function callee) m ended) :
    Arrives C g settings context id e m ended (m.resume g target ended e.dst) :=
  .inr ⟨target, callee, args, ha, ⟨entered, henters⟩, h, rfl⟩

lemma place (h : Arrives C g settings context id e m ended n) :
    n.node = e.dst ∧ n.function = m.function := by
  rcases h with ⟨o, ho, rfl⟩ | ⟨target, callee, args, -, -, -, rfl⟩
  · have hfunction := function_acts ho
    exact ⟨rfl, hfunction⟩
  · exact ⟨node_resume, function_resume⟩

end Arrives

namespace Solver

variable {s t : Solver} {context : Context} {o m n ended : Moment} {p : Point} {id : Nat} {e : Edge}

/-! ## Described activations -/

/-- What a solver stores describes an activation that started as `o` and is now as `m`. -/
structure Describes (s : Solver) (context : Context) (o m : Moment) : Prop where
  state : ∃ a, s.states.get? ⟨m.node, context⟩ = some a ∧ a.Covers context.isModular m
  entry : (s.globals.value (.entry o.function context)).Covers context.isModular o
  effects : context.isModular = true →
    (s.globals.value (.summary o.function)).toSummary.Accounts o m
  returns : context.isModular = true → ∀ f, s.graph.function? o.function = some f →
    m.node = f.exit → (s.globals.value (.summary o.function)).toSummary.Returns m.result

section

variable (h : s.Describes context o m)
include h

lemma Describes.grow (ht : t.Numeric) (hst : Extends s t)
    (hstate : ∃ a, t.states.get? ⟨m.node, context⟩ = some a ∧ a.Covers context.isModular m) :
    t.Describes context o m := by
  obtain ⟨haccounts, hreturns⟩ := explains_of_le (hst.source.globals (.summary o.function))
    (hst.flat.globals _) (ht.globals _) (hst.globals _).1
  refine ⟨hstate, ?_, fun hmod => haccounts _ _ (h.effects hmod),
    fun hmod f hf hexit => hreturns _ (h.returns hmod f (hst.graph ▸ hf) hexit)⟩
  exact covers_of_le (hst.source.globals _) (hst.flat.globals _) (ht.globals _)
    (hst.globals _).1 h.entry

lemma Describes.reached : Reached (between s t) ⟨m.node, context⟩ m := by
  rintro _ ⟨rfl, -⟩
  exact h.state

lemma Describes.opened (hs : s.Numeric) : Opened (between s t) o.function context o :=
  fun _ ⟨hfits, hnumeric, hle⟩ =>
    covers_of_le (hs.flat.globals (.entry o.function context)) hfits hnumeric hle h.entry

end

variable {callee : String} {args : List Expr} {f : Function} {changed : Bool}
  {l : List (String × Context × State)}

lemma Describes.returning (h : s.Describes context n ended) (hs : s.Numeric) {settings : Settings}
    (hocc : Occurs s.graph settings context n ended)
    (henters : Moment.Enters s.graph callee args m n)
    (hf : s.graph.function? callee = some f) (hexit : ended.node = f.exit) :
    Returning (between s t) s.graph callee context m ended := by
  have hcallee := function_enters henters
  subst hcallee
  have hglobals := globals_enters henters
  refine ⟨hocc.function_eq, fun x hx => ?_, fun hmod v ⟨hfits, hnumeric, hle⟩ => ?_,
    fun hmod f' hf' o ho => ?_⟩
  · rw [hocc.undeclared hx, hglobals]
  · obtain ⟨haccounts, hreturns⟩ := explains_of_le
      (hs.flat.globals (.summary n.function)) hfits hnumeric hle
    refine ⟨?_, hreturns _ (h.returns hmod f hf hexit)⟩
    replace haccounts := haccounts _ _ (h.effects hmod)
    unfold Summary.Accounts at haccounts ⊢
    rwa [hglobals] at haccounts
  · cases hf.symm.trans hf'
    obtain ⟨a, ha, hcov⟩ := h.state
    rw [hexit] at ha
    rw [hmod] at hcov
    exact ⟨a, ho.1.trans ha, hcov⟩

/-! ## The first ascent -/

/-- A solver of a sequential integer program after an ascent that nothing preceded. -/
structure Ascended (s : Solver) : Prop extends Sequential s where
  consistent : s.Consistent
  worklist : ∀ p, p ∉ s.worklist

section

variable (hs : s.Ascended)
include hs

lemma Ascended.stable (h : s.Known p) : s.Stable p := by
  obtain ⟨a, ha⟩ := h.resolve_left (hs.worklist p)
  exact (hs.consistent.stable p a ha).resolve_left (hs.worklist p)

lemma Ascended.describes_of_result {a b : State} (ha : a.Numeric)
    (hcov : a.Covers context.isModular m) (hb : s.states.get? ⟨m.node, context⟩ = some b)
    (hle : a.le b = .ok true)
    (hyield : Yielded (between s s) s.graph m.function ⟨m.node, context⟩ a)
    (hfunction : m.function = o.function)
    (hentry : (s.globals.value (.entry o.function context)).Covers context.isModular o)
    (heffects : context.isModular →
      (s.globals.value (.summary o.function)).toSummary.Accounts o m) : s.Describes context o m := by
  refine ⟨⟨b, hb, hcov.le ha.flat (hs.numeric.states _ b hb) hle⟩, hentry, heffects, ?_⟩
  rw [← hfunction]
  intro hmod f hf hexit
  obtain ⟨hret, haccepted⟩ := hyield hmod f hf hexit.symm hcov.reachable
  have hreturns : (Summary.ofReturn (a.get (State.retCell m.function))).Returns m.result :=
    .inr ⟨rfl, hcov.has_ret⟩
  have hnumeric := numeric_ofReturn hret
  exact (explains_of_le (fits_summary hnumeric.flat) (hs.numeric.flat.globals _)
    (hs.numeric.globals _) haccepted).2 _ hreturns

lemma Ascended.describes_entry (hf : s.graph.function? o.function = some f)
    (ho : o.node = f.entry)
    (hentry : (s.globals.value (.entry o.function context)).Covers context.isModular o) :
    s.Describes context o o := by
  have hknown : s.Known ⟨o.node, context⟩ := by
    obtain ⟨a, ha, -⟩ := hentry
    refine hs.consistent.closed.entries (.entry o.function context) ?_ _ ?_
    · rw [ha]
      simp
    · simp [entryPoint?, hf, ho]
  obtain ⟨a, b, hset, hb, hle⟩ := hs.stable hknown
  have hopened : Opened (between s s) o.function context o := by
    rintro v ⟨hfits, hnumeric, hle⟩
    exact covers_of_le (hs.numeric.flat.globals _) hfits hnumeric hle hentry
  obtain ⟨ha, hcov, hyield⟩ := hset.result_between hs.numeric
    (meets_evaluate_entry numeric_between hs.graph hs.settings hf ho hopened)
  exact hs.describes_of_result ha hcov hb hle hyield rfl hentry fun _ => .refl

section

variable (hm : s.Describes context o m)
include hm

/-- The target of an edge from a described activation is stable, and its equation covers what the
activation may come to along the edge. -/
lemma Ascended.transits
    (hbelongs : s.graph.Belongs m.node m.function) (he : s.graph.edges[id]? = some e)
    (hsrc : e.src = m.node) (ended : Moment) :
    ∃ a b, s.states.get? ⟨e.dst, context⟩ = some b ∧ a.le b = .ok true ∧ a.Numeric ∧
      (∃ before, before.Covers context.isModular m ∧ ∃ after,
        Transits (between s s) s.graph s.settings context id e before m ended after ∧
          ∀ modular n, after.Covers modular n → a.Covers modular n) ∧
      Yielded (between s s) s.graph m.function ⟨e.dst, context⟩ a := by
  have hknown : s.Known ⟨e.dst, context⟩ := by
    obtain ⟨a, ha, hcov⟩ := hm.state
    refine hs.consistent.closed.successors _ a ha hcov.reachable e.dst ?_
    exact mem_map.2 ⟨(id, e), hsrc ▸ Graph.mem_edgesFrom he, rfl⟩
  obtain ⟨a, b, hset, hb, hle⟩ := hs.stable hknown
  have hreached : Reached (between s s) ⟨e.src, context⟩ m := hsrc ▸ hm.reached
  obtain ⟨ha, htransits, hyield⟩ := hset.result_between hs.numeric
    (meets_evaluate_edge numeric_between hs.graph hs.settings he (hsrc ▸ hbelongs) hreached ended)
  exact ⟨a, b, hb, hle, ha, htransits, hyield⟩

lemma Ascended.describes_arrival
    (hfunction : m.function = o.function) (hbelongs : s.graph.Belongs m.node m.function)
    (he : s.graph.edges[id]? = some e) (hsrc : e.src = m.node)
    (hn : Arrives (between s s) s.graph s.settings context id e m ended n) :
    s.Describes context o n := by
  obtain ⟨hnode, hsame⟩ := hn.place
  obtain ⟨a, b, hb, hle, ha, ⟨before, hbefore, after, htransits, hafter⟩, hyield⟩ :=
    hs.transits hm hbelongs he hsrc ended
  rw [← hnode] at hb hyield
  rw [← hsame] at hyield
  refine hs.describes_of_result ha (hafter _ _ (htransits.leads.covers hbefore n hn)) hb hle hyield
    (hsame.trans hfunction) hm.entry fun hmod => ?_
  -- Each global is as it was at `m`, or its new value was contributed on the way.
  have hrecorded := htransits.leads.recorded hbefore n hn hmod
  rcases hm.effects hmod with hany | heffects
  · exact .inl hany
  refine or_iff_not_imp_left.2 fun hany x => ?_
  rcases hrecorded x with hx | ⟨v, hhas, hv, haccepted⟩
  · rw [hx]
    exact heffects x
  · have hwrite := numeric_ofWrite x hv
    change (GlobalValue.summary _).le (s.globals.value (.summary m.function)) = _ at haccepted
    rw [hfunction] at haccepted
    have hle := toSummary_le (fits_summary hwrite.flat) (hs.numeric.flat.globals _) haccepted
    have hsummary := (hs.numeric.globals (.summary o.function)).toSummary
    obtain hany' | hbelow := (Summary.le_iff hwrite.flat hsummary.flat).1 hle
    · exact absurd hany' hany
    obtain ⟨w, hw, hvw⟩ := hbelow.writes (.ofGlobal x) v (by simp [Summary.ofWrite, get?_singleton])
    exact .inr ⟨w, hw, Value.has_of_below hvw (hsummary.writes _ w hw).1.isAddr hhas⟩

lemma Ascended.describes_call
    (hbelongs : s.graph.Belongs m.node m.function) (he : s.graph.edges[id]? = some e)
    (hsrc : e.src = m.node) {target : Option LValue} (ha : e.action = .call target callee args)
    (hn : Moment.Enters s.graph callee args m n) :
    s.Describes (s.settings.calleeContext context id m.function callee) n n := by
  obtain ⟨_, _, -, -, -, ⟨before, hbefore, after, htransits, -⟩, -⟩ := hs.transits hm hbelongs he
    hsrc m
  obtain ⟨r, hr, haccepted, hcov⟩ := htransits.opens hbefore target callee args n ha hn
  obtain ⟨f, hf, hnode⟩ := entry_enters hn
  have hcallee := function_enters hn
  subst hcallee
  refine hs.describes_entry hf hnode ?_
  exact covers_of_le (fits_state hr.flat)
    (hs.numeric.flat.globals _) (hs.numeric.globals _) haccepted ⟨r, rfl, hcov⟩

end

lemma Ascended.describes (hstart : ∀ name f locals result, name ∈ s.settings.entryPoints →
      s.graph.function? name = some f →
      s.Describes (s.settings.context.root .main name)
        ⟨name, f.entry, locals, result, s.graph.startGlobals⟩
        ⟨name, f.entry, locals, result, s.graph.startGlobals⟩)
    (h : Occurs s.graph s.settings context o m) : s.Describes context o m := by
  induction h with
  | start hname hf => exact hstart _ _ _ _ hname hf
  | act hm he hsrc h ih =>
    exact hs.describes_arrival ih hm.function_eq (hm.belongs hs.graph) he hsrc (.act h)
  | call hm he hsrc ha h ih => exact hs.describes_call ih (hm.belongs hs.graph) he hsrc ha h
  | ret hm he hsrc ha h hended hf hexit ih ihended =>
    have hreturning := ihended.returning (t := s) hs.numeric hended h hf hexit
    exact hs.describes_arrival ih hm.function_eq (hm.belongs hs.graph) he hsrc (.ret ha h hreturning)

end

/-! ## Later stages -/

/-- All activations that occur in the runs of a program are described. -/
structure Covering (g : Graph) (options : Settings) (s : Solver) : Prop extends Sequential s where
  sameGraph : s.graph = g
  sameSettings : s.settings = options
  describes : ∀ context o m, Occurs g options context o m → s.Describes context o m

variable {g : Graph} {settings : Settings}

/-- If all activations are described, evaluating the point of one covers it once more. -/
lemma Covering.evaluate (hs : Covering s.graph s.settings s)
    (h : Occurs s.graph s.settings context o m) :
    (evaluate s.graph s.settings ⟨m.node, context⟩).Meets (between s t)
      (State.Covers context.isModular · m) := by
  have hentry : ∀ {context o f}, s.Describes context o o → s.graph.function? o.function = some f →
      o.node = f.entry → (StaticAnalysis.evaluate s.graph s.settings ⟨o.node, context⟩).Meets
        (between s t) (State.Covers context.isModular · o) := fun hd hf ho =>
    (meets_evaluate_entry numeric_between hs.graph hs.settings hf ho (hd.opened hs.numeric)).mono
      fun _ hr => hr.2.1
  have hedge : ∀ {context o m n ended id e}, Occurs s.graph s.settings context o m →
      s.graph.edges[id]? = some e → e.src = m.node →
      Arrives (between s t) s.graph s.settings context id e m ended n →
      (StaticAnalysis.evaluate s.graph s.settings ⟨n.node, context⟩).Meets (between s t)
        (State.Covers context.isModular · n) := by
    intro context o m n ended id e hm he hsrc hn
    have hreached : Reached (between s t) ⟨e.src, context⟩ m :=
      hsrc ▸ (hs.describes _ _ _ hm).reached
    have heval := meets_evaluate_edge numeric_between hs.graph hs.settings he
      (hsrc ▸ hm.belongs hs.graph) hreached ended
    rw [hn.place.1]
    refine heval.mono ?_
    rintro r ⟨-, ⟨before, hbefore, after, htransits, hafter⟩, -⟩
    exact hafter _ _ (htransits.leads.covers hbefore n hn)
  have hd := hs.describes _ _ _ h
  cases h with
  | start _ hf => exact hentry hd hf rfl
  | act hm he hsrc h => exact hedge hm he hsrc (.act h)
  | call _ _ _ _ h =>
    obtain ⟨f, hf, hnode⟩ := entry_enters h
    exact hentry hd (function_enters h ▸ hf) hnode
  | ret hm he hsrc ha h hended hf hexit =>
    have hreturning := (hs.describes _ _ _ hended).returning (t := t) hs.numeric hended h hf hexit
    exact hedge hm he hsrc (.ret ha h hreturning)

lemma Covering.lower (hs : Covering g settings s) (h : s.lower p = .ok t) :
    Covering g settings t := by
  obtain rfl := hs.sameGraph
  obtain rfl := hs.sameSettings
  obtain ⟨new, s', value, heval, hvalue, rfl⟩ := lower_cases h
  obtain ⟨-, hnew, hs', hprog, hstates⟩ := hs.evaluatePoint heval
    (numeric_evaluate numeric_between hs.graph hs.settings p)
  have hold : (s'.states.getD p .unreachable).Numeric := by
    rw [getD_eq]
    cases hp : s'.states.get? p with
    | none => exact numeric_unreachable
    | some a => exact hs'.numeric.states p a hp
  have hvalue' : value.Numeric := by
    rcases hvalue with hvalue | rfl
    exacts [numeric_narrow hold hnew hvalue, hnew]
  have ht : Numeric { s' with states := s'.states.insert p value } := hs'.numeric.insert hvalue'
  refine ⟨⟨hs'.graph, hs'.settings, ht⟩, hprog.graph, hprog.settings, fun context o m hocc => ?_⟩
  have hd := hs.describes _ _ _ hocc
  refine hd.grow ht ⟨hs.numeric.flat, ht.flat, hprog.graph, hprog.settings, hprog.globals⟩ ?_
  obtain ⟨a, ha, hcov⟩ := hd.state
  dsimp only
  rw [get?_insert]
  split
  next hpoint =>
    -- The new state of the point covers the activation, and so did the old one.
    subst hpoint
    have hcov' := (hs.evaluatePoint heval (hs.evaluate hocc)).1
    refine ⟨value, rfl, ?_⟩
    rcases hvalue with hvalue | rfl
    · rw [getD_eq, hstates, ha, Option.getD_some] at hvalue
      exact hcov.narrow hcov' (hs.numeric.states _ a ha) hnew hvalue
    · exact hcov'
  next => exact ⟨a, hstates ▸ ha, hcov⟩

lemma Covering.descend {rounds : Nat} (hs : Covering g settings s) (h : descend rounds s = .ok t) :
    Covering g settings t := by
  induction rounds generalizing s with
  | zero =>
    cases h
    exact hs
  | succ rounds ih =>
    obtain ⟨u, hu, h⟩ := bind_eq_ok.1 h
    have hcov : Covering g settings u := foldlM_induct (fun _ _ _ _ hu hv => hu.lower hv) hs hu
    exact ih hcov h

lemma Covering.ascend (hs : Covering g settings s) (h : s.ascend = .ok (changed, t)) :
    Covering g settings t := by
  obtain ⟨ht, hgrows⟩ := Sequential.ascend hs.toSequential h
  refine ⟨ht, hgrows.graph.trans hs.sameGraph, hgrows.settings.trans hs.sameSettings,
    fun context o m hocc => ?_⟩
  have hd := hs.describes _ _ _ hocc
  refine hd.grow ht.numeric hgrows.toExtends ?_
  obtain ⟨a, ha, hcov⟩ := hd.state
  obtain ⟨b, hb, hle⟩ := hgrows.states _ a ha
  exact ⟨b, hb, hcov.le (hs.numeric.states _ a ha).flat (ht.numeric.states _ b hb) hle⟩

/-! ## Solving -/

lemma numeric_seeds (hg : g.Sequential) (hrel : settings.relation = .none)
    (h : seeds g settings = .ok l) : ∀ e ∈ l, e.2.2.Numeric := fun _ he =>
  (seeds_cases h he).elim (fun ha => (numeric_initial hg hrel ha).1) fun ⟨_, ha⟩ =>
    (numeric_modularEntry hg hrel ha).1

lemma mem_seeds (h : seeds g settings = .ok l) {name : String}
    (hname : name ∈ settings.entryPoints) :
    ∃ a, State.initial g settings = .ok a ∧ (name, settings.context.root .main name, a) ∈ l := by
  obtain ⟨roots, hroots, h⟩ := bind_eq_ok.1 h
  obtain ⟨modular, -, h⟩ := bind_eq_ok.1 h
  cases h
  obtain ⟨e, he, hseed⟩ := exists_of_mapM hroots hname
  obtain ⟨a, ha, hseed⟩ := bind_eq_ok.1 hseed
  cases hseed
  exact ⟨a, ha, mem_append_left _ he⟩

lemma Sequential.seed (hs : s.Sequential) (h : s.seed = .ok t) : t.Numeric := by
  obtain ⟨l, hl, h⟩ := bind_eq_ok.1 h
  have hnumeric := numeric_seeds hs.graph hs.settings hl
  refine foldlM_induct (fun u e v he hu hv => ?_) hs.numeric h
  obtain ⟨function, context, state⟩ := e
  dsimp only at hv
  split at hv
  · cases hv
    exact hu
  next f hf =>
    obtain ⟨w, hw, hv⟩ := bind_eq_ok.1 hv
    cases hv
    have hstate := hnumeric _ he
    have hu' : Numeric { u with point := ⟨f.entry, context⟩ } := hu.of_same rfl rfl
    exact (numeric_contribute hu' (fits_state hstate.flat) hstate hw).of_same rfl rfl

lemma sequential_new (hg : g.Sequential) (hrel : settings.relation = .none) :
    (new g settings).Sequential :=
  ⟨hg, hrel, ⟨(consistent_new hg.scalar hrel).flat, fun p a h => by simp [new] at h,
    fun _ => trivial⟩⟩

lemma covering_ascend (hg : g.Sequential) (hrel : settings.relation = .none)
    (hseed : (new g settings).seed = .ok s) (hascend : s.ascend = .ok (changed, t)) :
    Covering g settings t := by
  have hconsistent := consistent_new hg.scalar hrel
  obtain ⟨l, hl, -⟩ := bind_eq_ok.1 hseed
  obtain ⟨⟨hprog, -⟩, hrooted⟩ := rooted_seed hconsistent.flat hl
    (flat_seeds hg.scalar hrel hl) hseed
  have hs : s.Sequential :=
    ⟨hprog.graph ▸ hg, hprog.settings ▸ hrel, (sequential_new hg hrel).seed hseed⟩
  obtain ⟨ht, hgrows⟩ := Sequential.ascend hs hascend
  obtain ⟨hct, -, hempty⟩ := (hconsistent.seed hseed).1.ascend hascend
  obtain rfl : t.graph = g := hgrows.graph.trans hprog.graph
  obtain rfl : t.settings = settings := hgrows.settings.trans hprog.settings
  have hascended : t.Ascended := ⟨ht, hct, hempty⟩
  refine ⟨ht, rfl, rfl, fun context o m =>
    hascended.describes fun name f locals result hname hf => ?_⟩
  -- The seed of an entry point covers every start, and what is stored bounds the seed.
  refine hascended.describes_entry hf rfl ?_
  obtain ⟨a, ha, hmem⟩ := mem_seeds hl hname
  obtain ⟨hnumeric, hcov⟩ := numeric_initial hg hrel ha
  rw [ContextPolicy.isModular_root]
  have hstored := (hrooted _ hmem f (by rw [hprog.graph]; exact hf)).2
  refine covers_of_le (hs.numeric.flat.globals _) (ht.numeric.flat.globals _)
    (ht.numeric.globals _) (hgrows.globals _).1 ?_
  exact covers_of_le (fits_state hnumeric.flat) (hs.numeric.flat.globals _)
    (hs.numeric.globals _) hstored ⟨a, rfl, hcov _ rfl⟩

lemma covering_solve {sol : Solution} (hg : g.Sequential) (hrel : settings.relation = .none)
    (h : (new g settings).solve = .ok sol) : ∃ s : Solver, Covering g settings s ∧
    sol = s.solution := by
  obtain ⟨s₁, changed, s₂, hseed, hascend, hlater⟩ := solve_cases h
  have h₂ := covering_ascend hg hrel hseed hascend
  rcases hlater with ⟨-, rfl⟩ | ⟨-, s₃, hdescend, hlast⟩
  · exact ⟨s₂, h₂, rfl⟩
  have hcleared : Covering g settings { s₂ with worklist := .empty } :=
    ⟨⟨h₂.graph, h₂.settings, h₂.numeric.of_same rfl rfl⟩, h₂.sameGraph, h₂.sameSettings,
      fun context o m hocc =>
      have hd := h₂.describes context o m hocc
      ⟨hd.state, hd.entry, hd.effects, hd.returns⟩⟩
  have h₃ := hcleared.descend hdescend
  rcases hlast with ⟨-, rfl⟩ | ⟨changed', s₄, hascend', rfl⟩
  exacts [⟨s₃, h₃, rfl⟩, ⟨s₄, h₃.ascend hascend', rfl⟩]

end Solver
end StaticAnalysis
