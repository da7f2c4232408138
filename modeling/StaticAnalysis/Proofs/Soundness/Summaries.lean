import StaticAnalysis.Proofs.Soundness.Calls

/-!
# Summaries cover runs

A summary *accounts* for an activation if each global that the activation changed is among the
writes with a value that has what is in it now, or if anything may happen.  Applying a summary that
accounts for a callee covers the moment at which the caller goes on.  All writes are weak, so their
order does not matter: a global that is still to be written holds what it held before the call.
-/

namespace StaticAnalysis

open List Moment SortedMap

namespace Summary

/-- What changed in the globals between two moments is among the effects. -/
def Accounts (t : Summary) (m n : Moment) : Prop :=
  t.anything = true ∨ ∀ x, n.globals x = m.globals x ∨
    ∃ v, t.writes.get? (.ofGlobal x) = some v ∧ v.Has (n.globals x)

/-- A returned value is among those that the summary gives. -/
def Returns (t : Summary) (k : Int) : Prop := t.anything = true ∨ t.returns = true ∧ t.ret.Has k

end Summary

namespace State

open Step

variable {C : Contract} {env : Env} {s r : State} {m n : Moment} {v : Value}

/-! ## Weak writes -/

/-- Store values in cells that may or may not get them. -/
def weakWrites (env : Env) (l : List (Cell × Value)) (s : State) : Step State :=
  l.foldlM (fun (s : State) e => s.setCell env e.1 e.2 false) s

variable {x callee : String} {l : List (Cell × Value)} {arg : String → Option Value}

lemma ofCaller_global : ofCaller env (.ofGlobal x) = env.modular := by
  simp [ofCaller, Cell.isGlobal, Cell.ofGlobal, Base.rank]

lemma meets_writes_modular (hC : C.Numeric) (hmod : env.modular)
    (hl : ∀ e ∈ l, e.2.Numeric ∧ ∃ x, e.1 = .ofGlobal x) :
    (weakWrites env l s).Meets C fun r => r = s ∧
      ∀ x v, (.ofGlobal x, v) ∈ l →
        C.accepted (.summary env.function) (.summary (.ofWrite (.ofGlobal x) v)) := by
  induction l with
  | nil => exact meets_pure ⟨rfl, by simp⟩
  | cons e l ih =>
    obtain ⟨c, w⟩ := e
    obtain ⟨hw, y, rfl⟩ := hl _ mem_cons_self
    rw [weakWrites, foldlM_cons]
    dsimp only [setCell]
    rw [ofCaller_global, if_pos hmod]
    rw [bind_assoc]
    refine (meets_recordEffect hC (Summary.numeric_ofWrite y hw)).bind fun _ hy => ?_
    rw [pure_bind]
    refine (ih fun e he => hl e (mem_cons_of_mem _ he)).mono fun r ⟨hr, h⟩ => ⟨hr, fun x v hx => ?_⟩
    rcases mem_cons.1 hx with heq | hx
    · cases heq
      exact hy
    · exact h x v hx

/-- Between two moments that differ in globals: a listed cell holds what is there at the second, or
what is there at the first and a write to come has what is there at the second. -/
def Pending (l : List (Cell × Value)) (m n : Moment) (s : State) : Prop :=
  s.reachable = true ∧ ∀ c w, s.cells.get? c = some w → Holds false n c w ∨
    Holds false m c w ∧ ∃ x v, c = .ofGlobal x ∧ (c, v) ∈ l ∧ v.Has (n.globals x)

lemma Pending.covers (h : Pending [] m n s) : s.Covers false n := by
  refine ⟨h.1, fun c w hw => (h.2 c w hw).resolve_right ?_⟩
  rintro ⟨-, x, v, -, hmem, -⟩
  cases hmem

lemma Pending.write (hs : s.Numeric) (hv : v.Numeric) (h : Pending ((.ofGlobal x, v) :: l) m n s)
    {u : Value} (hu : v.join (s.get (.ofGlobal x)) = .ok u) (hr : s.set (.ofGlobal x) u = .ok r) :
    Pending l m n r := by
  obtain ⟨cells, rfl, hcells⟩ := set_spec hr
  refine ⟨h.1, fun c w hw => ?_⟩
  rcases hcells c w hw with ⟨rfl, rfl⟩ | ⟨hne, hw⟩
  · have hright : ∀ k, (s.get (.ofGlobal x)).Has k → w.Has k :=
      fun k hk => hv.integral.has_join (hs.get _).integral hu (.inr hk)
    have hold : ∀ m, (∀ y, s.cells.get? (.ofGlobal x) = some y → Holds false m (.ofGlobal x) y) →
        Holds false m (.ofGlobal x) w := by
      intro m hm
      refine ⟨m.globals x, content?_global, hright _ ?_⟩
      unfold State.get SortedMap.getD
      cases hc : s.cells.get? (.ofGlobal x) with
      | none => trivial
      | some y =>
        obtain ⟨k, hk, hyk⟩ := hm y hc
        rw [content?_global] at hk
        cases hk
        exact hyk
    by_cases hx : v.Has (n.globals x)
    · exact .inl ⟨_, content?_global, hv.integral.has_join (hs.get _).integral hu (.inl hx)⟩
    cases hc : s.cells.get? (.ofGlobal x) with
    | none => exact .inl (hold n fun y hy => by rw [hc] at hy; cases hy)
    | some y =>
      rcases h.2 _ y hc with hy | ⟨hy, x', v', hx', hmem, hv'⟩
      · exact .inl (hold n fun y' hy' => by cases hc.symm.trans hy'; exact hy)
      · refine .inr ⟨hold m fun y' hy' => by cases hc.symm.trans hy'; exact hy, x', v', hx', ?_,
          hv'⟩
        cases hx'
        rcases mem_cons.1 hmem with heq | hmem
        · cases heq
          exact absurd hv' hx
        · exact hmem
  · refine (h.2 c w hw).imp_right fun ⟨hm, x', v', hx', hmem, hv'⟩ => ⟨hm, x', v', hx', ?_, hv'⟩
    refine (mem_cons.1 hmem).resolve_left fun heq => ?_
    cases heq
    exact hne rfl

lemma meets_writes_single (henv : env.Sequential) (hmod : env.modular = false)
    (hl : ∀ e ∈ l, e.2.Numeric ∧ ∃ x, e.1 = .ofGlobal x) (hs : s.Numeric) :
    (weakWrites env l s).Meets C fun r => r.Numeric ∧
      (Pending l m n s → r.Covers false n) := by
  induction l generalizing s with
  | nil => exact meets_pure ⟨hs, fun h => h.covers⟩
  | cons e l ih =>
    obtain ⟨c, w⟩ := e
    obtain ⟨hw, x, rfl⟩ := hl _ mem_cons_self
    rw [weakWrites, foldlM_cons, setCell_eq henv hs (ofCaller_global.trans hmod), bind_assoc]
    refine meets_lift_bind fun u hu => meets_lift_bind fun r hr => ?_
    have hrn := numeric_set hs (Value.numeric_join hw (hs.get _) hu) hr
    refine (ih (fun e he => hl e (mem_cons_of_mem _ he)) hrn).mono fun t ht => ⟨ht.1, fun h => ?_⟩
    exact ht.2 (h.write hs hw hu hr)

lemma leads_weakWrites (hC : C.Numeric) (henv : env.Sequential) (hs : s.Numeric)
    (hl : ∀ e ∈ l, e.2.Numeric ∧ ∃ x, e.1 = .ofGlobal x) {node : Nat} {globals : String → Int} :
    (weakWrites env l s).Meets C (Leads C env s m fun n =>
      (∀ x, globals x = m.globals x ∨ ∃ v, (.ofGlobal x, v) ∈ l ∧ v.Has (globals x)) ∧
        n = { m with node, globals }) := by
  cases hmod : env.modular with
  | true =>
    refine (meets_writes_modular hC hmod hl).mono ?_
    rintro _ ⟨rfl, haccepted⟩
    refine ⟨hs, ?_, ?_⟩
    · rintro hcov _ ⟨-, rfl⟩
      refine ⟨hcov.reachable, fun c w hw => ?_⟩
      obtain ⟨i, hi, hwi⟩ := hcov.cells c w hw
      rcases content?_cases hi with ⟨name, rfl, rfl⟩ | ⟨hmod', -⟩
      · exact ⟨m.held name, content?_local (m := { m with node, globals }), hwi⟩
      · simp [hmod] at hmod'
    · rintro - _ ⟨hchanged, rfl⟩ - x
      refine (hchanged x).imp_right fun ⟨v, hmem, hv⟩ => ?_
      exact ⟨v, hv, (hl _ hmem).1, haccepted x v hmem⟩
  | false =>
    refine (meets_writes_single (m := m) (n := { m with node, globals }) henv hmod hl hs).mono
      fun r hr => ⟨hr.1, ?_, fun _ _ _ hmod' => by simp [hmod] at hmod'⟩
    rintro hcov _ ⟨hchanged, rfl⟩
    rw [hmod] at hcov ⊢
    refine hr.2 ⟨hcov.reachable, fun c w hw => ?_⟩
    obtain ⟨i, hi, hwi⟩ := hcov.cells c w hw
    rcases content?_cases hi with ⟨name, rfl, rfl⟩ | ⟨-, x, rfl, rfl⟩
    · exact .inl ⟨m.held name, content?_local (m := { m with node, globals }), hwi⟩
    · rcases hchanged x with hx | ⟨v, hmem, hv⟩
      · exact .inl ⟨globals x, content?_global, hx ▸ hwi⟩
      · exact .inr ⟨⟨_, hi, hwi⟩, x, v, rfl, hmem, hv⟩

/-! ## Applying summaries -/

lemma mem_globalCells {g : Graph} (hg : g.Sequential) {c : Cell} :
    c ∈ g.globalCells ↔ ∃ x, g.isGlobal x ∧ c = .ofGlobal x := by
  unfold Graph.globalCells
  simp only [mem_flatMap, mem_map]
  constructor
  · rintro ⟨⟨x, d⟩, hd, path, hpath, rfl⟩
    have hget := get?_eq_some_iff.2 hd
    rw [(hg.globals x d hget).1, Graph.scalarPaths_int, mem_singleton] at hpath
    subst hpath
    exact ⟨x, Option.isSome_iff_exists.2 ⟨d, hget⟩, rfl⟩
  · rintro ⟨x, hx, rfl⟩
    obtain ⟨d, hd⟩ := Option.isSome_iff_exists.1 hx
    refine ⟨(x, d), get?_eq_some_iff.1 hd, [], ?_, rfl⟩
    rw [(hg.globals x d hd).1, Graph.scalarPaths_int]
    exact mem_singleton_self _

lemma applyUnknown_eq {values : List Value} (hvalues : ∀ v ∈ values, v.Numeric) :
    s.applyUnknown env values = weakWrites env
    (env.graph.globalCells.map fun c => (c, .top)) s := by
  unfold applyUnknown weakWrites
  rw [foldlM_map]
  conv_rhs => rw [← bind_pure (List.foldlM _ s env.graph.globalCells)]
  congr 1
  funext t
  rw [pointeesOf_eq hvalues, ok_bind]
  dsimp only
  rw [reachableCells_nil, ok_bind]
  rfl

lemma instantiate_eq (hv : v.Numeric) : instantiate callee arg v = v := by
  rcases hv.cases with rfl | rfl | ⟨i, rfl, -⟩ <;> rfl

lemma applyWrites_eq (hl : ∀ e ∈ l, e.2.Numeric ∧ ∃ x, e.1 = .ofGlobal x) :
    l.foldlM (fun s e => applyWrite env callee arg s e.1 e.2) s = weakWrites env l s := by
  unfold weakWrites
  induction l generalizing s with
  | nil => rfl
  | cons e l ih =>
    obtain ⟨c, w⟩ := e
    obtain ⟨hw, x, rfl⟩ := hl _ mem_cons_self
    have hfirst : applyWrite env callee arg s (.ofGlobal x) w =
        s.setCell env (.ofGlobal x) w false := by
      unfold applyWrite
      rw [instantiate_eq hw]
      rfl
    rw [foldlM_cons, foldlM_cons, hfirst]
    congr 1
    funext t
    exact ih fun e he => hl e (mem_cons_of_mem _ he)

lemma leads_applySummary (hC : C.Numeric) (henv : env.Sequential) (hs : s.Numeric)
    (hm : m.function = env.function) (callee : String) {summary : Summary} (hsum : summary.Numeric)
    {args : List Expr} (hargs : ∀ e ∈ args, e.isInteger) {target : Option LValue}
    (ht : target.all LValue.isInteger) (ended : Moment) (node : Nat) :
    (s.applySummary env callee summary args target).Meets C (Leads C env s m fun n =>
      (summary.Accounts m ended ∧ summary.Returns ended.result ∧
        ∀ x, env.graph.isGlobal x = false → ended.globals x = m.globals x) ∧
        n = m.resume env.graph target ended node) := by
  unfold applySummary
  split
  next hr =>
    refine meets_pure (leads_of_none numeric_unreachable ?_)
    rintro hcov n ⟨⟨-, h | ⟨h, -⟩, -⟩, -⟩ <;> simp [hcov.reachable, h] at hr
  next =>
    have hvalues : (s.evalArgs env args).Meets C fun values => ∀ v ∈ values, v.Numeric :=
      meets_mapM fun e he => (evaluates_eval hC hs hm e (hargs e he)).mono fun _ hv => hv.numeric
    refine hvalues.bind fun values hvalues => ?_
    extract_lets params arg finish
    -- The effects change the globals, and then the target gets the result.
    have hfinish : ∀ (Q : Prop) (r : State),
        Leads C env s m (fun n => Q ∧ n = { m with node, globals := ended.globals }) r →
        (finish r).Meets C (Leads C env s m fun n => (Q ∧ summary.Returns ended.result) ∧
          n = m.resume env.graph target ended node) := by
      intro Q r hr
      have hv : Evaluates env r { m with node, globals := ended.globals }
          (fun k => summary.Returns ended.result ∧ k = ended.result)
          (if summary.anything then .top else instantiate callee arg summary.ret) := by
        rw [instantiate_eq hsum.ret]
        split
        next => exact ⟨Value.numeric_top, fun _ _ _ => trivial⟩
        next hany =>
          refine ⟨hsum.ret, ?_⟩
          rintro - _ ⟨hret, rfl⟩
          exact (hret.resolve_left hany).2
      change (r.deliver env target _).Meets C _
      refine (leads_deliver hC henv hr.numeric hm ht hv).mono fun t ht => (hr.seq ht).imp ?_
      exact fun _ n hn => ⟨hn.1.1, hn.1.2, hn.2⟩
    clear_value finish
    cases hany : summary.anything with
    | true =>
      rw [if_pos rfl, applyUnknown_eq hvalues]
      refine (leads_weakWrites hC henv hs ?_).bind fun r hr => (hfinish _ r hr).mono fun t ht =>
        ht.imp ?_
      · intro e he
        obtain ⟨c, hc, rfl⟩ := mem_map.1 he
        obtain ⟨x, -, rfl⟩ := (mem_globalCells henv.graph).1 hc
        exact ⟨Value.numeric_top, x, rfl⟩
      · rintro - n ⟨⟨-, hret, hundeclared⟩, rfl⟩
        refine ⟨⟨fun x => ?_, hret⟩, rfl⟩
        cases hx : env.graph.isGlobal x with
        | false => exact .inl (hundeclared x hx)
        | true =>
          refine .inr ⟨.top, mem_map.2 ⟨.ofGlobal x, ?_, rfl⟩, trivial⟩
          exact (mem_globalCells henv.graph).2 ⟨x, hx, rfl⟩
    | false =>
      rw [if_neg (by simp)]
      have hentries : ∀ e ∈ summary.writes.entries, e.2.Numeric ∧ ∃ x, e.1 = .ofGlobal x :=
        fun e he => hsum.writes e.1 e.2 (get?_eq_some_iff.2 he)
      split
      on_goal 1 =>
        refine (meets_forM fun c _ => (meets_recordEffect hC (Summary.numeric_ofRead c)).mono
          fun _ _ => trivial).bind fun _ _ => ?_
      all_goals
        change (summary.writes.entries.foldlM (fun s e => applyWrite env callee arg s e.1 e.2) s >>=
          finish).Meets C _
        rw [applyWrites_eq hentries]
        refine (leads_weakWrites hC henv hs hentries).bind fun r hr =>
          (hfinish _ r hr).mono fun t ht => ht.imp ?_
        rintro - n ⟨⟨haccounts, hret, -⟩, rfl⟩
        refine ⟨⟨fun x => ?_, hret⟩, rfl⟩
        refine (haccounts.resolve_left (by simp [hany]) x).imp_right fun ⟨v, hv, hhas⟩ => ?_
        exact ⟨v, get?_eq_some_iff.1 hv, hhas⟩

end State
end StaticAnalysis
