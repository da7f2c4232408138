import StaticAnalysis.Proofs.Soundness.Summaries

/-!
# Equations cover runs

The state after an edge covers what a run may come to along the edge, and a call contributes an
entry state that covers the new activation.  The right-hand side of the equation of a point
therefore covers each moment at the point whose predecessors are covered, and in a function that is
analysed without its callers it contributes what the function returns.
-/

namespace StaticAnalysis

open StaticAnalysis.Graph List Summary ContextPolicy

lemma ContextPolicy.isModular_root {p : ContextPolicy} {thread : ThreadId} {function : String} :
    (p.root thread function).isModular = false := by
  cases p <;> rfl

lemma ContextPolicy.isModular_callee {p : ContextPolicy} {c inner : Context} {site : Nat}
    {caller callee : String} (h : p.callee c site caller callee = .ok inner) :
    inner.isModular = false := by
  unfold ContextPolicy.callee at h
  split at h
  next => cases h; rfl
  next hc =>
    split at h
    · cases h
      simp [Context.isModular, hc]
    · cases h
      rfl
  next =>
    dsimp only at h
    split at h
    · cases h
    · split at h <;> split at h <;> (cases h; rfl)
  next => cases h; rfl
  next =>
    cases h
    exact isModular_root

namespace State

variable {g : Graph} {settings : Settings} {r : State}

/-! ## Start states -/

lemma numeric_initial (hg : g.Sequential) (hrel : settings.relation = .none)
    (h : initial g settings = .ok r) :
    r.Numeric ∧ ∀ n : Moment, n.globals = g.startGlobals → r.Covers false n := by
  unfold initial at h
  rw [hrel] at h
  refine Fault.foldlM_induct ?_ ⟨numeric_unknown, fun n _ => ?_⟩ h
  · rintro s ⟨name, d⟩ t hmem ⟨hs, hcov⟩ h
    have hd := SortedMap.get?_eq_some_iff.2 hmem
    obtain ⟨hty, -, hinit⟩ := hg.globals name d hd
    have hset : s.set (.ofGlobal name) (staticValue d.init .int []) = .ok t := by
      dsimp only at h
      rw [hty, scalarPaths_int] at h
      have hcell : (g.cellType? ((Cell.ofGlobal name).fields [])).getD .int = .int := by
        change (g.cellType? (.ofGlobal name)).getD .int = .int
        rw [cellType?_global hd, hty]
        rfl
      simp only [foldlM_cons, foldlM_nil, hcell] at h
      rw [← h]
      exact (bind_pure _).symm
    have hvalue : (staticValue d.init .int []).Numeric ∧
        (staticValue d.init .int []).Has (g.startGlobals name) := by
      have hscalar : (staticValue d.init .int []).Scalar := scalar_staticValue hinit rfl
      unfold staticValue at hscalar ⊢
      simp only [Graph.startGlobals, hd, Option.bind_some]
      cases hfind : d.init.find? (·.1 == [])
      all_goals
        rw [hfind] at hscalar
        exact ⟨⟨hscalar, rfl⟩, IntVal.contains_constant.2 rfl⟩
    refine ⟨numeric_set hs hvalue.1 hset, fun n hn => (hcov n hn).set ?_ hset⟩
    exact ⟨n.globals name, Moment.content?_global, hn ▸ hvalue.2⟩
  · exact ⟨rfl, fun c v hv => by simp [unknown] at hv⟩

lemma numeric_modularEntry (hg : g.Sequential) (hrel : settings.relation = .none)
    {function : String} (h : modularEntry g settings function = .ok r) :
    r.Numeric ∧ ∀ f, g.function? function = some f → ∀ n : Moment, n.function = function →
      r.Covers true n := by
  unfold modularEntry at h
  split at h
  next hnone =>
    cases h
    exact ⟨numeric_unreachable, fun f hf => by rw [hnone] at hf; cases hf⟩
  next f hf =>
    rw [hrel] at h
    suffices hall : r.Numeric ∧ ∀ n : Moment, n.function = function → r.Covers true n from
      ⟨hall.1, fun _ _ => hall.2⟩
    refine Fault.foldlM_induct ?_ ⟨numeric_unknown, fun n _ => ?_⟩ h
    · rintro s param t hmem ⟨hs, hcov⟩ h
      have hty : param.ty = .int := by
        have := hg.declared function f hf param (mem_append_left _ hmem)
        simp only [VarDecl.isInteger, Bool.and_eq_true, beq_iff_eq] at this
        exact this.1
      simp only [hty] at h
      refine ⟨numeric_set hs Value.numeric_top h, fun n hn => (hcov n hn).set (v := .top) ?_ h⟩
      refine ⟨n.held param.name, ?_, trivial⟩
      rw [← hn]
      exact Moment.content?_local
    · exact ⟨rfl, fun c v hv => by simp [unknown] at hv⟩

end State

/-- The summary under a key; nothing is known to happen if there is none. -/
def GlobalValue.toSummary : GlobalValue → Summary
  | .summary t => t
  | _ => .bottom

lemma GlobalValue.Numeric.toSummary {v : GlobalValue} (h : v.Numeric) : v.toSummary.Numeric := by
  cases v with
  | summary t => exact h
  | _ => exact Summary.numeric_bottom

/-- A call of `callee` that started at `m` has ended, and a store that keeps the contract knows
about it. -/
structure Returning (C : Contract) (g : Graph) (callee : String) (inner : Context)
    (m ended : Moment) : Prop where
  function : ended.function = callee
  undeclared : ∀ x, g.isGlobal x = false → ended.globals x = m.globals x
  summary : inner.isModular = true → ∀ v, C.answers (.summary callee) v →
    v.toSummary.Accounts m ended ∧ v.toSummary.Returns ended.result
  exit : inner.isModular = false → ∀ f, g.function? callee = some f →
    ∀ o, C.states ⟨f.exit, inner⟩ o → ∃ t, o = some t ∧ t.Covers false ended

/-- A contributed entry state covers an activation. -/
def Opens (C : Contract) (callee : String) (inner : Context) (n : Moment) : Prop :=
  ∃ t : State, t.Numeric ∧ C.accepted (.entry callee inner) (.state t) ∧ t.Covers inner.isModular n

/-- A run comes to `n` along an edge from `m`, by an action or by the return of a call that ended in
`ended`. -/
def Arrives (C : Contract) (g : Graph) (settings : Settings) (context : Context) (id : Nat)
    (e : Edge) (m ended n : Moment) : Prop :=
  (∃ o, Moment.Acts g e.action m o ∧ n = { o with node := e.dst }) ∨
    ∃ target callee args, e.action = .call target callee args ∧
      (∃ entered, Moment.Enters g callee args m entered) ∧
      Returning C g callee (settings.calleeContext context id m.function callee) m ended ∧
      n = m.resume g target ended e.dst

open Step State

variable {C : Contract} {env : Env} {g : Graph} {settings : Settings} {s : State} {m : Moment}

/-! ## Edges -/

variable {args : List Expr} {target : Option LValue} {f : Function} {context : Context} {id : Nat}
  {e : Edge} {p : Point} {function : String}

section

variable (hC : C.Numeric) (henv : env.Sequential) (hs : s.Numeric) (hm : m.function = env.function)
include hC henv hs hm

lemma meets_transferModular (callee : String) (hargs : ∀ e ∈ args, e.isInteger)
    (ht : target.all LValue.isInteger) (ended : Moment) (node : Nat) :
    (transferModular env s target callee args).Meets C fun r =>
      Leads C env s m (fun n => Returning C env.graph callee .modular m ended ∧
        n = m.resume env.graph target ended node) r ∧
      ∀ n, Moment.Enters env.graph callee args m n → Opens C callee .modular n := by
  unfold transferModular
  refine (meets_lift fun r hr => numeric_modularEntry henv.graph henv.relation hr).bind
    fun entry ⟨hentry, hcov⟩ => ?_
  refine (meets_contribute (hC.offers _ _ (fits_state hentry.flat) hentry)).bind
    fun _ haccepted => ?_
  refine meets_lookup.bind fun v hv => ?_
  change (s.applySummary env callee v.toSummary args target).Meets C _
  have happly := leads_applySummary hC henv hs hm callee
    (hC.answers _ v hv).toSummary hargs ht ended node
  refine happly.mono fun r hr => ⟨hr.imp ?_, ?_⟩
  · rintro - _ ⟨hret, rfl⟩
    obtain ⟨haccounts, hreturns⟩ := hret.summary rfl v hv
    exact ⟨⟨haccounts, hreturns, hret.undeclared⟩, rfl⟩
  · intro n hn
    refine ⟨entry, hentry, haccepted, ?_⟩
    cases hn with
    | intro hf _ => exact hcov _ hf _ rfl

lemma meets_return (hmod : env.modular = false) {inner : Context}
    (hinner : inner.isModular = false) {callee : String} (hf : env.graph.function? callee = some f)
    (ht : target.all LValue.isInteger) (ended : Moment) (node : Nat) : ((do
      let exit ← Shared.exitState env.graph callee inner
      s.combine env callee exit (some .empty) target) : Step State).Meets C
      (Leads C env s m fun n => Returning C env.graph callee inner m ended ∧
        n = m.resume env.graph target ended node) := by
  unfold Shared.exitState
  rw [hf]
  dsimp only
  rw [bind_assoc]
  refine meets_stateAt (fun s t h => absurd h (hC.alike s t)) fun o ho => ?_
  have hexit : (o.getD .unreachable).Numeric := by
    cases o with
    | none => exact numeric_unreachable
    | some t => exact hC.states _ _ ho t rfl
  rw [pure_bind]
  by_cases hcallee : ended.function = callee
  · subst hcallee
    have hcombine := leads_combine hC henv hs hm hmod hexit ht ended node
    refine hcombine.mono fun r hr => hr.imp ?_
    rintro - _ ⟨hret, rfl⟩
    obtain ⟨t, rfl, hcov⟩ := hret.exit hinner f hf o ho
    exact ⟨hcov, rfl⟩
  · -- Some activation of the callee is needed to speak of what is numeric.
    have h := leads_combine hC henv hs hm hmod hexit ht { ended with function := callee } node
    exact h.mono fun r hr => leads_of_none hr.numeric fun _ n hn => hcallee hn.1.function

lemma meets_transferCall (context : Context) (hmod : env.modular = false) (callee : String)
    (hargs : ∀ e ∈ args, e.isInteger) (ht : target.all LValue.isInteger) (ended : Moment)
    (node : Nat) : (transferCall env context s target callee args).Meets C fun r => ∃ inner,
      env.settings.context.callee context env.edge env.function callee = .ok inner ∧
      Leads C env s m (fun n => (∃ entered, Moment.Enters env.graph callee args m entered) ∧
        Returning C env.graph callee inner m ended ∧ n = m.resume env.graph target ended node) r ∧
      (s.Covers env.modular m → ∀ n, Moment.Enters env.graph callee args m n →
        Opens C callee inner n) := by
  unfold transferCall
  refine meets_lift_bind fun inner hinner => ?_
  have hmod' := isModular_callee hinner
  cases hf : env.graph.function? callee with
  | none =>
    have hnone : ∀ n, ¬ Moment.Enters env.graph callee args m n := fun n hn => by
      cases hn with
      | intro hf' _ => rw [hf] at hf'; cases hf'
    unfold enter
    rw [hf, pure_bind]
    exact meets_pure ⟨inner, hinner,
      leads_of_none numeric_unreachable fun _ _ ⟨⟨n, hn⟩, _⟩ => hnone n hn,
      fun _ n hn => absurd hn (hnone n)⟩
  | some f =>
    refine (meets_enter hC henv hs hm hf hargs).bind ?_
    rintro ⟨entry, _⟩ ⟨hentry, rfl, hcov⟩
    dsimp only at hentry hcov ⊢
    split
    next hbottom =>
      have hnone : s.Covers env.modular m → ∀ n, ¬ Moment.Enters env.graph callee args m n := by
        intro hs n hn
        have := (hcov hmod hs n hn).reachable
        simp [hentry.flat.isBottom_eq, this] at hbottom
      exact meets_pure ⟨inner, hinner,
        leads_of_none numeric_unreachable fun hs _ ⟨⟨n, hn⟩, _⟩ => hnone hs n hn,
        fun hs n hn => absurd hn (hnone hs n)⟩
    next =>
      refine (meets_contribute (hC.offers _ _ (fits_state hentry.flat) hentry)).bind
        fun _ haccepted => ?_
      have hreturn := meets_return hC henv hs hm hmod hmod' hf ht ended node
      refine hreturn.mono fun r hr => ⟨inner, hinner, ?_, ?_⟩
      · exact hr.imp fun _ n hn => hn.2
      · intro hs n hn
        refine ⟨entry, hentry, haccepted, ?_⟩
        rw [hmod']
        exact hcov hmod hs n hn

end

/-- The state after an edge covers all that a run may come to along it, and a call opens the new
activation. -/
structure Transits (C : Contract) (g : Graph) (settings : Settings) (context : Context) (id : Nat)
    (e : Edge) (s : State) (m ended : Moment) (r : State) : Prop where
  leads : Leads C (.onEdge g settings m.function context id) s m
    (Arrives C g settings context id e m ended) r
  opens : s.Covers context.isModular m → ∀ target callee args n,
    e.action = .call target callee args →
    Moment.Enters g callee args m n → Opens C callee
      (settings.calleeContext context id m.function callee) n

lemma meets_transfer (hC : C.Numeric) (hg : g.Sequential) (hrel : settings.relation = .none)
    (he : e ∈ g.edges.toList) (hs : s.Numeric) (ended : Moment) :
    (transfer g settings m.function context id e s).Meets C
      (Transits C g settings context id e s m ended) := by
  have ha := hg.action e he
  unfold transfer
  split
  next hr =>
    have hnone : ∀ modular, ¬ s.Covers modular m := fun _ hcov => by simp [hcov.reachable] at hr
    refine meets_pure ⟨⟨numeric_unreachable, ?_, ?_⟩, ?_⟩ <;>
      exact fun hcov => absurd hcov (hnone _)
  next =>
    have henv : (Env.onEdge g settings m.function context id).Sequential := ⟨hrel, hg⟩
    extract_lets env
    change env.Sequential at henv
    split
    next target callee args hcall =>
      rw [hcall] at ha
      simp only [Action.isSequential, Bool.and_eq_true, all_eq_true] at ha
      -- Along a call a run only comes to where the caller goes on.
      have harrives : ∀ inner n, settings.calleeContext context id m.function callee = inner →
          Arrives C g settings context id e m ended n →
          (∃ entered, Moment.Enters g callee args m entered) ∧
            Returning C g callee inner m ended ∧ n = m.resume g target ended e.dst := by
        rintro _ n rfl (⟨o, ho, -⟩ | ⟨target', callee', args', hcall', hentered, hret, rfl⟩)
        · rw [hcall] at ho
          cases ho
        · cases hcall.symm.trans hcall'
          exact ⟨hentered, hret, rfl⟩
      split
      next hmodular =>
        have hinner : settings.calleeContext context id m.function callee = .modular := by
          simp [Settings.calleeContext, hmodular]
        have htransfer := meets_transferModular (m := m) hC henv hs rfl callee ha.2 ha.1 ended e.dst
        refine htransfer.mono ?_
        rintro r ⟨hleads, hopens⟩
        refine ⟨hleads.imp fun _ n hn => ?_, ?_⟩
        · exact (harrives _ n hinner hn).2
        · intro _ target' callee' args' n hcall' hn
          cases hcall.symm.trans hcall'
          rw [hinner]
          exact hopens n hn
      next hmodular =>
        have hmod : env.modular = false := by
          simp only [Settings.isModularCall, Bool.or_eq_true, not_or] at hmodular
          simpa using hmodular.1
        have htransfer := meets_transferCall (m := m) hC henv hs rfl context hmod callee ha.2 ha.1
          ended e.dst
        refine htransfer.mono ?_
        rintro r ⟨inner, hinner, hleads, hopens⟩
        have hinner' : settings.calleeContext context id m.function callee = inner := by
          change settings.context.callee context id m.function callee = .ok inner at hinner
          simp [Settings.calleeContext, hmodular, hinner]
        refine ⟨hleads.imp fun _ n hn => harrives _ n hinner' hn, ?_⟩
        intro hcov target' callee' args' n hcall' hn
        cases hcall.symm.trans hcall'
        rw [hinner']
        exact hopens hcov n hn
    next hspawn =>
      rw [hspawn] at ha
      simp [Action.isSequential] at ha
    next hcall _ =>
      refine (leads_step hC henv hs rfl ha).mono fun r hr => ⟨⟨hr.numeric, ?_, ?_⟩, ?_⟩
      · rintro hcov _ (⟨o, ho, rfl⟩ | ⟨target, callee, args, hcall', -⟩)
        · have h := hr.covers hcov o ho
          exact ⟨h.reachable, h.cells⟩
        · exact absurd hcall' (hcall target callee args)
      · rintro hcov _ (⟨o, ho, rfl⟩ | ⟨target, callee, args, hcall', -⟩)
        · exact hr.recorded hcov o ho
        · exact absurd hcall' (hcall target callee args)
      · exact fun _ target callee args _ hcall' => absurd hcall' (hcall target callee args)

/-! ## Equations -/

lemma Step.meets_foldlM_visit {α σ : Type} {P Q : σ → Prop} {f : σ → α → Step σ} {l : List α}
    {x : α} {s : σ} (hx : x ∈ l)
    (hkeep : ∀ s y, y ∈ l → P s → (f s y).Meets C fun t => P t ∧ (Q s → Q t))
    (hvisit : ∀ s, P s → (f s x).Meets C fun t => P t ∧ Q t) (hs : P s) :
    (l.foldlM f s).Meets C fun t => P t ∧ Q t := by
  induction l generalizing s with
  | nil => cases hx
  | cons y l ih =>
    rw [foldlM_cons]
    have hkeep' := fun s z (hz : z ∈ l) => hkeep s z (mem_cons_of_mem _ hz)
    rcases List.mem_cons.1 hx with rfl | hx
    · refine (hvisit s hs).bind fun t ht => ?_
      refine meets_foldlM (P := fun t => P t ∧ Q t) (fun s z hz hs => ?_) ht
      exact (hkeep' s z hz hs.1).mono fun t ht => ⟨ht.1, ht.2 hs.2⟩
    · exact (hkeep s y mem_cons_self hs).bind fun t ht => ih hx hkeep' ht.1

/-- A store covers a moment of an activation by the state of a point. -/
def Reached (C : Contract) (p : Point) (m : Moment) : Prop :=
  ∀ o, C.states p o → ∃ t, o = some t ∧ t.Covers p.context.isModular m

/-- A store covers a moment by the state in which its function is entered. -/
def Opened (C : Contract) (function : String) (context : Context) (m : Moment) : Prop :=
  ∀ v, C.answers (.entry function context) v → ∃ t, v = .state t ∧ t.Covers context.isModular m

lemma meets_joinEdge (hC : C.Numeric) (hg : g.Sequential) (hrel : settings.relation = .none)
    (id : Nat) (he : e ∈ g.edges.toList) {acc : State} (hacc : acc.Numeric) (ended : Moment) :
    (joinEdge g settings m.function p acc id e).Meets C fun r => r.Numeric ∧
      (∀ modular n, acc.Covers modular n → r.Covers modular n) ∧
      (Reached C ⟨e.src, p.context⟩ m → ∃ s, s.Covers p.context.isModular m ∧
        ∃ t, Transits C g settings p.context id e s m ended t ∧
          ∀ modular n, t.Covers modular n → r.Covers modular n) := by
  unfold joinEdge
  refine meets_stateAt (fun s t h => absurd h (hC.alike s t)) fun o ho => ?_
  cases o with
  | none =>
    refine meets_pure ⟨hacc, fun _ _ h => h, fun hreached => ?_⟩
    obtain ⟨t, ht, -⟩ := hreached none ho
    cases ht
  | some before =>
    have hbefore := hC.states _ _ ho before rfl
    dsimp only
    split
    next hbottom =>
      refine meets_pure ⟨hacc, fun _ _ h => h, fun hreached => ?_⟩
      obtain ⟨t, ht, hcov⟩ := hreached _ ho
      cases ht
      simp [hbefore.flat.isBottom_eq, hcov.reachable] at hbottom
    next =>
      refine (meets_transfer (m := m) hC hg hrel he hbefore ended).bind fun t ht => ?_
      refine meets_lift fun r hr => ⟨numeric_join hacc ht.leads.numeric hr, ?_, fun hreached => ?_⟩
      · exact fun _ _ h => .join (.inl h) hacc ht.leads.numeric hr
      · obtain ⟨_, hsome, hcov⟩ := hreached _ ho
        cases hsome
        exact ⟨before, hcov, t, ht, fun _ _ h => .join (.inr h) hacc ht.leads.numeric hr⟩

lemma meets_entryState (hC : C.Numeric) : (entryState g function p).Meets C fun r => r.Numeric ∧
      ∀ f m, g.function? function = some f → f.entry = p.node → Opened C function p.context m →
        r.Covers p.context.isModular m := by
  unfold entryState
  split
  next =>
    refine meets_lookup.bind fun v hv => ?_
    have hnumeric := hC.answers _ v hv
    split
    · refine meets_pure ⟨hnumeric, fun f m _ _ hopened => ?_⟩
      obtain ⟨t, ht, hcov⟩ := hopened _ hv
      cases ht
      exact hcov
    next hstate =>
      refine meets_pure ⟨numeric_unreachable, fun f m _ _ hopened => ?_⟩
      obtain ⟨t, ht, -⟩ := hopened v hv
      exact absurd ht (hstate t)
  next hentry =>
    refine meets_pure ⟨numeric_unreachable, fun f m hf hp _ => ?_⟩
    simp [hf, hp] at hentry

/-- At the exit of a function that is analysed without its callers, the returned value was accepted
as an effect of the function. -/
def Yielded (C : Contract) (g : Graph) (function : String) (p : Point) (r : State) : Prop :=
  p.context.isModular = true → ∀ f, g.function? function = some f → f.exit = p.node →
    r.reachable = true → (r.get (retCell function)).Numeric ∧
      C.accepted (.summary function) (.summary (.ofReturn (r.get (retCell function))))

lemma meets_evaluate (hC : C.Numeric) (hp : g.Belongs p.node function) {Q : State → Prop} (h : ((do
      let entry ← entryState g function p
      (g.edgesInto p.node).foldlM
        (fun acc ie => joinEdge g settings function p acc ie.1 ie.2) entry) : Step State).Meets C
      fun r => r.Numeric ∧ Q r) :
    (evaluate g settings p).Meets C fun r => r.Numeric ∧ Q r ∧ Yielded C g function p r := by
  unfold evaluate
  rw [hp.functionOf, ok_bind, ← bind_assoc]
  refine h.bind fun r ⟨hr, hQ⟩ => ?_
  have hret := hr.get (retCell function)
  split
  next =>
    refine (meets_contribute (hC.offers _ _ (fits_summary (flat_ofReturn hret.scalar))
      (numeric_ofReturn hret))).bind fun _ haccepted => meets_pure ⟨hr, hQ, ?_⟩
    exact fun _ _ _ _ _ => ⟨hret, haccepted⟩
  next hexit =>
    refine meets_pure ⟨hr, hQ, fun hmod f hf hnode hreachable => ?_⟩
    simp [hmod, hf, hnode, hr.flat.isBottom_eq, hreachable] at hexit

section

variable (hC : C.Numeric) (hg : g.Sequential) (hrel : settings.relation = .none)
include hC hg hrel

lemma numeric_evaluate (p : Point) : (evaluate g settings p).Meets C State.Numeric := by
  cases hnode : g.nodes[p.node]? with
  | none =>
    unfold evaluate Graph.functionOf Graph.node
    rw [hnode]
    trivial
  | some node =>
    -- Any activation will do, since nothing is said about it.
    let m : Moment := ⟨node.function, p.node, fun _ => 0, 0, fun _ => 0⟩
    have heval : (evaluate g settings p).Meets C fun r =>
        r.Numeric ∧ True ∧ Yielded C g node.function p r := by
      refine meets_evaluate hC ⟨node, hnode, rfl⟩ ?_
      refine (meets_entryState hC).bind fun entry ⟨hentry, _⟩ => ?_
      refine meets_foldlM (P := fun r : State => r.Numeric ∧ True) (fun acc ie hie hacc => ?_)
        ⟨hentry, trivial⟩
      have hjoin := meets_joinEdge (m := m) (p := p) hC hg hrel ie.1
        (mem_edges_of_edgesInto hie) hacc.1 m
      exact hjoin.mono fun r hr => ⟨hr.1, trivial⟩
    exact heval.mono fun r hr => hr.1

lemma meets_evaluate_entry (hf : g.function? m.function = some f) (hm : m.node = f.entry)
    (hopened : Opened C m.function context m) :
    (evaluate g settings ⟨m.node, context⟩).Meets C fun r => r.Numeric ∧
      r.Covers context.isModular m ∧ Yielded C g m.function ⟨m.node, context⟩ r := by
  refine meets_evaluate hC (hm ▸ hg.entry _ f hf) ?_
  refine (meets_entryState hC).bind fun entry ⟨hentry, hcov⟩ => ?_
  refine meets_foldlM (P := fun r : State => r.Numeric ∧ r.Covers context.isModular m) ?_
    ⟨hentry, hcov f m hf hm.symm hopened⟩
  intro acc ie hie ⟨hacc, hacccov⟩
  refine (meets_joinEdge hC hg hrel ie.1 (mem_edges_of_edgesInto hie) hacc m).mono ?_
  exact fun r hr => ⟨hr.1, hr.2.1 _ _ hacccov⟩

lemma meets_evaluate_edge (he : g.edges[id]? = some e) (hm : g.Belongs e.src m.function)
    (hreached : Reached C ⟨e.src, context⟩ m) (ended : Moment) :
    (evaluate g settings ⟨e.dst, context⟩).Meets C fun r => r.Numeric ∧
      (∃ s, s.Covers context.isModular m ∧ ∃ t, Transits C g settings context id e s m ended t ∧
        ∀ modular n, t.Covers modular n → r.Covers modular n) ∧
      Yielded C g m.function ⟨e.dst, context⟩ r := by
  have hmem : e ∈ g.edges.toList := mem_of_getElem? (by simpa using he)
  refine meets_evaluate hC (hg.dst hmem hm) ?_
  refine (meets_entryState hC).bind fun entry ⟨hentry, _⟩ => ?_
  refine meets_foldlM_visit (mem_edgesInto he) ?_ ?_ hentry
  · intro acc ie hie hacc
    refine (meets_joinEdge hC hg hrel ie.1 (mem_edges_of_edgesInto hie) hacc m).mono ?_
    rintro r ⟨hr, hkeep, -⟩
    refine ⟨hr, ?_⟩
    rintro ⟨s, hs, t, ht, htcov⟩
    exact ⟨s, hs, t, ht, fun _ _ h => hkeep _ _ (htcov _ _ h)⟩
  · intro acc hacc
    exact (meets_joinEdge hC hg hrel id hmem hacc ended).mono fun r ⟨hr, _, hvisit⟩ =>
      ⟨hr, hvisit hreached⟩

end

end StaticAnalysis
