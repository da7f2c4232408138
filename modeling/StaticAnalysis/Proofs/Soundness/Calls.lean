import StaticAnalysis.Proofs.Soundness.Actions
import StaticAnalysis.Proofs.Transfer.FlatEdges

/-!
# Calls cover runs

A call that enters its callee does so in a state that covers the new activation, and the state after
the call covers the moment at which the caller goes on, provided that the exit of the callee covers
the moment at which the callee ended.  A call through a summary covers the moment at which the
caller goes on if the summary accounts for what the callee changed and returned.
-/

namespace StaticAnalysis

open List Moment Option SortedMap

lemma Step.ok_bind {α β : Type} (a : α) (f : α → Step β) :
    (liftM (Except.ok a : Except Fault α) >>= f) = f a := rfl

lemma Step.meets_mapM_forall₂ {α β : Type} {C : Contract} {f : α → Step β} {R : α → β → Prop}
    {l : List α} (h : ∀ x ∈ l, (f x).Meets C (R x)) : (l.mapM f).Meets C (List.Forall₂ R l) := by
  induction l with
  | nil =>
    rw [mapM_nil]
    exact meets_pure .nil
  | cons x l ih =>
    rw [mapM_cons]
    refine (h x mem_cons_self).bind fun b hb => ?_
    refine (ih fun x hx => h x (mem_cons_of_mem _ hx)).bind fun r hr => ?_
    exact meets_pure (.cons hb hr)

namespace State

open Step

variable {C : Contract} {env : Env} {s r : State} {m n : Moment} {v : Value}

/-! ## What a callee can reach -/

lemma reachableCells_nil : s.reachableCells [] = .ok (some .empty) := by
  simp [reachableCells, Closure.reach, Closure.steps, Closure.run]

variable {values : List Value} {callee : String} {node : Nat} {g : Graph} {f : Function}
  {param : VarDecl} {entry exit : State} {c : Cell} {ended : Moment} {target : Option LValue}

lemma pointeesOf_eq (h : ∀ v ∈ values, v.Numeric) : pointeesOf values = .ok (some []) := by
  induction values with
  | nil => rfl
  | cons v values ih =>
    rw [pointeesOf, (h v mem_cons_self).pointees?, ih fun w hw => h w (mem_cons_of_mem _ hw)]
    rfl

lemma sharedRoots_eq (hs : s.Numeric) : s.sharedRoots = .ok (some []) := by
  refine pointeesOf_eq fun v hv => ?_
  obtain ⟨⟨c, w⟩, hmem, rfl⟩ := mem_map.1 hv
  have := get?_eq_some_iff.2 hmem
  rw [get?_filter, filter_eq_some_iff] at this
  exact hs.cells c w this.1

lemma callReach_eq (hs : s.Numeric) (h : ∀ v ∈ values, v.Numeric) :
    s.callReach values = .ok (some .empty) := by
  have hpassed : values.mapM Value.pointees? = .ok (values.map fun _ => some []) := by
    induction values with
    | nil => rfl
    | cons v values ih =>
      rw [mapM_cons, (h v mem_cons_self).pointees?, ih fun w hw => h w (mem_cons_of_mem _ hw)]
      rfl
  have hroots : ∀ l : List Value, ((l.map fun _ => some ([] : List Cell)) ++ [some []]).mapM id =
      some ((l.map fun _ => []) ++ [[]]) := by
    intro l
    induction l with
    | nil => rfl
    | cons v l ih =>
      rw [map_cons, cons_append, mapM_cons, ih]
      rfl
  unfold callReach
  rw [hpassed, Fault.ok_bind, sharedRoots_eq hs, Fault.ok_bind, hroots]
  have hflat : ((values.map fun _ => ([] : List Cell)) ++ [[]]).flatten = [] := by simp
  dsimp only
  rw [hflat]
  exact reachableCells_nil

/-! ## Entering -/

lemma numeric_filterCells (hs : s.Numeric) (p : Cell → Value → Bool) :
    Numeric { s with cells := s.cells.filter p } := by
  refine ⟨hs.flat.filterCells p, hs.single, fun c v hv => ?_⟩
  rw [get?_filter, filter_eq_some_iff] at hv
  exact hs.cells c v hv.1

lemma Covers.enter (hcov : s.Covers false m) {n : Moment} (hglobals : n.globals = m.globals) :
    Covers false { s with cells := s.cells.filter fun c _ => visible (some .empty) c } n := by
  refine ⟨hcov.reachable, fun c v hv => ?_⟩
  rw [get?_filter, filter_eq_some_iff] at hv
  obtain ⟨hv, hvisible⟩ := hv
  obtain ⟨i, hi, hvi⟩ := hcov.cells c v hv
  rcases content?_cases hi with ⟨name, rfl, rfl⟩ | ⟨-, name, rfl, rfl⟩
  · simp [visible, Cell.isLocal, Cell.ofLocal, Base.rank, SortedSet.contains, SortedSet.empty,
      SortedSet.search] at hvisible
  · exact ⟨n.globals name, content?_global, by rwa [hglobals]⟩

lemma covers_setParam (hf : g.function? callee = some f) (hparam : param ∈ f.params)
    (hint : param.isInteger) {k : Int} (hn : n.function = callee) (hcov : s.Covers false n)
    (hv : v.Has k) (h : s.set (.ofLocal callee param.name) v = .ok r) :
    r.Covers false { n with locals := Function.update n.locals param.name k } := by
  subst hn
  have hlocal : g.isLocalIn n.function param.name = true := by
    have : (f.varType? param.name).isSome = true := by
      simp only [Function.varType?, isSome_map, find?_isSome]
      exact ⟨param, mem_append_left _ hparam, by simp⟩
    simp [Graph.isLocalIn, hf, this]
  have hwrite : n.write g param.name k =
      { n with locals := Function.update n.locals param.name k } := by
    simp [Moment.write, hlocal]
  have hname : isVariable param.name = true := by
    simp only [VarDecl.isInteger, Bool.and_eq_true] at hint
    exact hint.2
  rw [← hwrite]
  refine hcov.write (by simp [hlocal]) ?_ hv h
  rw [hwrite]
  refine (content?_local (m := { n with locals := _ })).trans ?_
  simp [held, isVariable_iff.1 hname]

lemma meets_bindParam (hentry : entry.Numeric) (hf : g.function? callee = some f)
    (hparam : param ∈ f.params) (hint : param.isInteger) {arg : Option (Expr × Value)}
    (harg : ∀ a, arg = some a → a.2.Numeric) :
    (s.bindParam env callee entry param arg).Meets C fun r => r.Numeric ∧
      ∀ n : Moment, n.function = callee → entry.Covers false n →
        (∀ a k, arg = some a → a.2.Has k →
          r.Covers false { n with locals := Function.update n.locals param.name k }) ∧
        (arg = none → r.Covers false n) := by
  obtain ⟨hty, hname⟩ : param.ty = .int ∧ isVariable param.name = true := by
    simpa [VarDecl.isInteger] using hint
  unfold bindParam
  extract_lets base
  rw [hty]
  cases arg with
  | none =>
    refine meets_lift fun r hr => ⟨numeric_set hentry Value.numeric_top hr, fun n hn hcov => ?_⟩
    subst hn
    refine ⟨fun a k ha => (by cases ha), fun _ => hcov.set (v := .top) ⟨n.locals param.name, ?_,
      trivial⟩ hr⟩
    refine content?_local.trans ?_
    simp [held, isVariable_iff.1 hname]
  | some a =>
    obtain ⟨e, v⟩ := a
    have hv := harg _ rfl
    rcases hv.cases with rfl | rfl | ⟨i, rfl, hi⟩
    case inl | inr.inl =>
      refine meets_lift fun r hr => ⟨numeric_set hentry hv hr, fun n hn hcov => ?_⟩
      refine ⟨fun a k ha hk => ?_, fun h => by cases h⟩
      cases ha
      exact covers_setParam hf hparam hint hn hcov hk hr
    case inr.inr =>
      refine meets_lift_bind fun j hj => ?_
      have hjt := IntVal.tight_restrict hi.wellFormed hj
      refine meets_lift fun r hr => ⟨numeric_set hentry (Value.numeric_int hjt) hr,
        fun n hn hcov => ?_⟩
      refine ⟨fun a k ha hk => ?_, fun h => by cases h⟩
      cases ha
      exact covers_setParam (v := .int j) hf hparam hint hn hcov
        (IntVal.contains_restrict hi.wellFormed hk hj) hr

lemma meets_bindParams (hentry : entry.Numeric) (hf : g.function? callee = some f)
    {params : List VarDecl} (hparams : ∀ d ∈ params, d ∈ f.params ∧ d.isInteger)
    {bound : List (Expr × Value)} (hbound : ∀ a ∈ bound, a.2.Numeric) (i : Nat) :
    ((params.zipIdx i).foldlM (fun entry p =>
      s.bindParam env callee entry p.1 bound[p.2]?) entry).Meets C
      fun r => r.Numeric ∧ ∀ values (n : Moment), n.function = callee →
        List.Forall₂ (fun a k => a.2.Has k) bound values → entry.Covers false n →
        r.Covers false { n with locals := Moment.bind params (values.drop i) n.locals } := by
  induction params generalizing entry i with
  | nil => exact meets_pure ⟨hentry, fun _ _ _ _ hcov => hcov⟩
  | cons param params ih =>
    obtain ⟨hparam, hint⟩ := hparams param mem_cons_self
    rw [zipIdx_cons, foldlM_cons]
    refine (meets_bindParam hentry hf hparam hint fun a ha => hbound a (mem_of_getElem? ha)).bind
      fun entry' ⟨hentry', hcov'⟩ => ?_
    refine (ih hentry' (fun d hd => hparams d (mem_cons_of_mem _ hd)) (i + 1)).mono
      fun r ⟨hr, hrcov⟩ => ⟨hr, fun values n hn hvalues hcov => ?_⟩
    obtain ⟨hsome, hnone⟩ := hcov' n hn hcov
    cases hb : bound[i]? with
    | none =>
      have hlen : values.length ≤ i := by
        rw [← hvalues.length_eq]
        simpa using hb
      have h := hrcov values n hn hvalues (hnone hb)
      rw [drop_eq_nil_of_le (by omega)] at h ⊢
      simpa [Moment.bind] using h
    | some a =>
      obtain ⟨hi, ha⟩ := List.getElem?_eq_some_iff.1 hb
      have hi' : i < values.length := by rwa [← hvalues.length_eq]
      have hk : a.2.Has (values.get ⟨i, hi'⟩) := ha ▸ hvalues.get hi hi'
      have h := hrcov values _ ?_ hvalues (hsome a _ hb hk)
      · rw [drop_eq_getElem_cons hi']
        exact h
      · exact hn

lemma meets_enter (hC : C.Numeric) (henv : env.Sequential) (hs : s.Numeric)
    (hm : m.function = env.function) (hf : env.graph.function? callee = some f) {args : List Expr}
    (hargs : ∀ e ∈ args, e.isInteger) :
    (s.enter env callee args).Meets C fun r => r.1.Numeric ∧ r.2 = some .empty ∧
      (env.modular = false → s.Covers env.modular m →
        ∀ n, Moment.Enters env.graph callee args m n → r.1.Covers false n) := by
  unfold enter
  rw [hf]
  refine (meets_mapM_forall₂ fun e he => evaluates_eval hC hs hm e (hargs e he)).bind
    fun values hvalues => ?_
  have hnumeric : ∀ v ∈ values, v.Numeric := fun v hv => by
    obtain ⟨i, hi, rfl⟩ := getElem_of_mem hv
    exact (hvalues.get (by rwa [hvalues.length_eq]) hi).numeric
  have hbound : ∀ a ∈ args.zip values, a.2.Numeric := fun a ha => hnumeric _ (of_mem_zip ha).2
  rw [callReach_eq hs hnumeric]
  refine meets_lift_bind fun reach hreach => ?_
  cases hreach
  have hparams : ∀ d ∈ f.params, d ∈ f.params ∧ d.isInteger = true := fun d hd =>
    ⟨hd, henv.graph.declared callee f hf d (mem_append_left _ hd)⟩
  refine (meets_bindParams (numeric_filterCells hs _) hf hparams hbound 0).bind
    fun entry ⟨hentry, hcov⟩ => ?_
  rw [if_pos henv.relation]
  have hrelation : { entry with relation := Relation.none } = entry := by
    rw [← hentry.flat.relation]
  refine meets_pure ⟨by rwa [hrelation], rfl, fun hmod hcovers n hn => ?_⟩
  rw [hrelation]
  rw [hmod] at hcovers
  cases hn with
  | intro hf' hyields =>
    cases hf.symm.trans hf'
    refine hcov _ ⟨callee, f.entry, _, _, m.globals⟩ rfl ?_ (hcovers.enter rfl)
    refine forall₂_iff_get.2 ⟨?_, fun i hi hi' => ?_⟩
    · rw [length_zip, ← hvalues.length_eq, min_self, hyields.length_eq]
    · have hia : i < args.length := by
        rw [length_zip] at hi
        omega
      have hiv : i < values.length := by rwa [← hvalues.length_eq]
      have hhas := (hvalues.get hia hiv).has (hmod ▸ hcovers) _ (hyields.get hia hi')
      simpa using hhas

/-! ## Returning -/

lemma get?_foldl_insert_cases {l : List (Cell × Value)} {cells : SortedMap Cell Value} {v : Value}
    (h : (l.foldl (fun m e => m.insert e.1 e.2) cells).get? c = some v) :
    (c, v) ∈ l ∨ cells.get? c = some v := by
  induction l generalizing cells with
  | nil => exact .inr h
  | cons e l ih =>
    rcases ih h with h | h
    · exact .inl (mem_cons_of_mem _ h)
    · rw [get?_insert] at h
      split at h
      next hc =>
        cases h
        exact .inl (by simp [hc])
      next => exact .inr h

/-- The caller's cells and the callee's globals, put together after a call. -/
def returned (s exit : State) (callee : String) : State :=
  { exit with
    relation := s.relation
    cells := (s.cells.filter fun c _ => !visible (some .empty) c).entries.foldl
      (fun m (c, v) => m.insert c v) (exit.cells.filter fun c _ => !c.isLocalOf callee) }

lemma returned_cases (h : (s.returned exit callee).cells.get? c = some v) :
    (s.cells.get? c = some v ∧ c.isLocal) ∨
      exit.cells.get? c = some v ∧ c.isLocalOf callee = false := by
  rcases get?_foldl_insert_cases h with h | h
  · have hc := get?_eq_some_iff.2 h
    rw [get?_filter, filter_eq_some_iff] at hc
    refine .inl ⟨hc.1, ?_⟩
    have := hc.2
    simp only [visible, Bool.not_or, Bool.not_not, Bool.and_eq_true] at this
    exact this.1
  · rw [get?_filter, filter_eq_some_iff] at h
    exact .inr ⟨h.1, by simpa using h.2⟩

lemma numeric_returned (hs : s.Numeric) (hexit : exit.Numeric) (callee : String) :
    (s.returned exit callee).Numeric := by
  have hcells : ∀ c v, (s.returned exit callee).cells.get? c = some v → v.Numeric := by
    intro c v hv
    rcases returned_cases hv with ⟨hv, -⟩ | ⟨hv, -⟩
    exacts [hs.cells c v hv, hexit.cells c v hv]
  exact ⟨⟨fun c v hv => (hcells c v hv).scalar, hexit.flat.copies, hexit.flat.kept,
    hs.flat.relation⟩, hexit.single, hcells⟩

lemma covers_returned (hcov : s.Covers false m) (hended : exit.Covers false ended) :
    (s.returned exit ended.function).Covers false { m with globals := ended.globals } := by
  refine ⟨hended.reachable, fun c v hv => ?_⟩
  rcases returned_cases hv with ⟨hv, hlocal⟩ | ⟨hv, hlocal⟩
  · obtain ⟨i, hi, hvi⟩ := hcov.cells c v hv
    rcases content?_cases hi with ⟨name, rfl, rfl⟩ | ⟨-, name, rfl, rfl⟩
    · exact ⟨m.held name, content?_local (m := { m with globals := ended.globals }), hvi⟩
    · simp [Cell.isLocal, Cell.ofGlobal, Base.rank] at hlocal
  · obtain ⟨i, hi, hvi⟩ := hended.cells c v hv
    rcases content?_cases hi with ⟨name, rfl, rfl⟩ | ⟨-, name, rfl, rfl⟩
    · simp [Cell.isLocalOf, Cell.isLocal, Cell.ofLocal, Base.rank, Base.owner] at hlocal
    · exact ⟨ended.globals name, content?_global, hvi⟩

lemma Covers.has_ret {modular : Bool} (hended : exit.Covers modular ended) :
    (exit.get (retCell ended.function)).Has ended.result := by
  unfold State.get SortedMap.getD
  cases hc : exit.cells.get? (retCell ended.function) with
  | none => trivial
  | some v =>
    obtain ⟨i, hi, hvi⟩ := hended.cells _ v hc
    have hheld : ended.held retName = ended.result := by simp [held]
    rw [retCell, content?_local, hheld] at hi
    cases hi
    exact hvi

/-- The last part of a call: the target gets the result. -/
def deliver (env : Env) (s : State) (target : Option LValue) (v : Value) : Step State :=
  match target with
  | some lv => s.assignValue env lv v
  | none => pure s

lemma leads_deliver (hC : C.Numeric) (henv : env.Sequential) (hs : s.Numeric)
    (hm : m.function = env.function) (ht : target.all LValue.isInteger) {K : Prop}
    (hv : Evaluates env s { m with node, globals := ended.globals } (fun k => K ∧
      k = ended.result) v) :
    (s.deliver env target v).Meets C (Leads C env s { m with node, globals := ended.globals }
      fun n => K ∧ n = m.resume env.graph target ended node) := by
  cases target with
  | none =>
    refine meets_pure ((leads_refl hs).imp ?_)
    rintro - _ ⟨-, rfl⟩
    rfl
  | some lv =>
    have hlv : lv.isInteger = true := ht
    obtain ⟨x, rfl, hx⟩ := LValue.exists_var hlv
    have hassign := leads_assignValue (m := { m with node, globals := ended.globals }) hC henv hs hm
      hx hv
    refine hassign.mono fun r hr => hr.imp ?_
    rintro - _ ⟨hK, rfl⟩
    exact ⟨ended.result, ⟨hK, rfl⟩, rfl⟩

lemma leads_combine (hC : C.Numeric) (henv : env.Sequential) (hs : s.Numeric)
    (hm : m.function = env.function) (hmod : env.modular = false) (hexit : exit.Numeric)
    (ht : target.all LValue.isInteger) (ended : Moment) (node : Nat) :
    (s.combine env ended.function exit (some .empty) target).Meets C (Leads C env s m fun n =>
      exit.Covers false ended ∧ n = m.resume env.graph target ended node) := by
  unfold combine
  split
  next hr =>
    refine meets_pure (leads_of_none numeric_unreachable fun hcov n hn => ?_)
    simp [hcov.reachable, hn.1.reachable] at hr
  next =>
    have hreturned := numeric_returned hs hexit ended.function
    change ((liftM (resyncRelation env (some .empty) (s.returned exit ended.function)) >>= _) :
      Step State).Meets C _
    rw [resyncRelation_eq hreturned.flat]
    -- The caller goes on with its own locals and the globals that the callee left.
    have hstep : Leads C env s m (fun n => exit.Covers false ended ∧
        n = { m with node, globals := ended.globals }) (s.returned exit ended.function) := by
      refine ⟨hreturned, ?_, fun _ _ _ hmod' => by simp [hmod] at hmod'⟩
      rintro hcov _ ⟨hended, rfl⟩
      rw [hmod] at hcov ⊢
      have h := covers_returned hcov hended
      exact ⟨h.reachable, h.cells⟩
    have hv : Evaluates env (s.returned exit ended.function) { m with node, globals := ended.globals }
        (fun k => exit.Covers false ended ∧ k = ended.result)
        (exit.get (retCell ended.function)) := by
      refine ⟨hexit.get _, ?_⟩
      rintro - _ ⟨hended, rfl⟩
      exact hended.has_ret
    change ((s.returned exit ended.function).deliver env target
      (exit.get (retCell ended.function))).Meets C _
    refine (leads_deliver hC henv hreturned hm ht hv).mono fun r hr => (hstep.seq hr).imp ?_
    exact fun _ n hn => ⟨hn.1, hn⟩

end State
end StaticAnalysis
