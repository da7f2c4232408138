import StaticAnalysis.Proofs.Soundness.MemoryRefinement

/-!
# Actions on memories with pointers

What an action does to a memory, its transfer function does to the state: if the state depicted the
memory before, it depicts the memory afterwards.
-/

namespace StaticAnalysis

open Memory Reading

namespace State

open Step

variable {ω : Type} {C : Contract} {m m' : Memory ω} {vars : String → ω} {env : Env} {s : State}
  {v : Value}

/-! ## Assignments -/

section

variable (henv : env.Whole)
include henv

lemma trackedVar?_of_whole (s : State) (lv : LValue) : s.trackedVar? env lv = none := by
  cases lv with
  | var x => simp [trackedVar?, tracked_of_whole henv]
  | _ => rfl

lemma assignScalar_eq (s : State) (lv : LValue) (e : Expr) :
    s.assignScalar env lv e = s.eval env e >>= s.assignValue env lv := by
  unfold assignScalar assignValue
  simp only [trackedVar?_of_whole henv]

variable {lv : LValue} {a : Action} (hm : m.Hosts env.graph env.function vars) (hs : s.Plain)
include hm hs

lemma stores_storeLValue (hv : v.Scalar) (hlv : lv.isScalar) :
    (s.storeLValue env lv v).Meets C fun t => t.Plain ∧ s.Stores m v (lv.Denotes m vars) t := by
  refine (Reading.locates_resolve (evaluates_memory henv hm) hs lv hlv).bind
    fun places hplaces => ?_
  split
  next l =>
    refine (depicts_store hm.distinct hs (hplaces.cells l rfl) fun p _ t strong ht =>
      sets_setCell henv ht hv).mono ?_
    rintro t ⟨ht, hstores⟩
    refine ⟨ht, fun hd o path d m' hdenotes => ?_⟩
    exact hstores hd o path d m' (hplaces.mem hd o path hdenotes l rfl)
  next =>
    refine (hs.havocAll henv (m := m)).mono ?_
    rintro t ⟨ht, hreachable, hall⟩
    refine ⟨ht, fun hd o path d m' _ _ hwrite => ?_⟩
    exact hd.written hwrite hreachable (hall _ d) fun _ _ d' _ _ => hall _ d'

lemma stores_assignValue (hv : v.Scalar) (hlv : lv.isScalar) :
    (s.assignValue env lv v).Meets C fun t => t.Plain ∧ s.Stores m v (lv.Denotes m vars) t := by
  unfold assignValue
  rw [trackedVar?_of_whole henv, Value.isBottom_eq hv]
  change ((if v.isVoid then pure s.stop else s.storeLValue env lv v) : Step State).Meets C _
  split
  next hvoid =>
    refine meets_pure ⟨hs.stop, fun _ o path d m' _ hd => ?_⟩
    simp [hd.isVoid] at hvoid
  next => exact stores_storeLValue henv hm hs hv hlv

/-! ## Actions -/

lemma depicts_act (ha : a.isScalar) (hact : m.Acts env vars a m') :
    (s.act env a).Meets C fun t => t.Plain ∧ (s.Depicts m → t.Depicts m') := by
  cases hact with
  | skip => exact meets_pure ⟨hs, id⟩
  | @assign _ _ lv e d o path htype he hlv hwrite =>
    simp only [Action.isScalar, Bool.and_eq_true] at ha
    change (s.assign env lv e).Meets C _
    rw [assign_eq htype, assignScalar_eq henv]
    refine (gives_eval (evaluates_memory henv hm) hs e ha.2).bind fun v hv => ?_
    refine (stores_assignValue henv hm hs hv.mem ha.1).mono ?_
    rintro t ⟨ht, hstores⟩
    exact ⟨ht, fun hd => hstores hd o path d m' hlv (hv.has hd d he) hwrite⟩
  | @guard _ c h =>
    refine (restricts_guard (refines_memory henv hm) true c ha hs).mono fun t ht => ?_
    exact ⟨ht.mem, fun hd => ht.describes hd h⟩
  | @check _ _ c =>
    refine (judges_evalCond (evaluates_memory henv hm) hs c ha).bind fun _ _ => ?_
    exact meets_pure ⟨hs, id⟩
  | ret => exact meets_pure ⟨hs, id⟩
  | @retValue _ _ e d o he ho hwrite =>
    refine (gives_eval (evaluates_memory henv hm) hs e ha).bind fun v hv => ?_
    refine meets_lift fun t hset => ?_
    refine ⟨hs.set hv.mem hset, fun hd => ?_⟩
    rw [← ho] at hset
    refine hd.written hwrite (reachable_set hset) ?_ fun o' path' d' hother hold => ?_
    · exact admits_set hset (fun _ => hv.has hd d he) fun hne => absurd rfl hne
    · have hunique : (m.cell o []).base.isUnique = true := by
        rw [ho]
        rfl
      exact admits_set hset (fun hcell => absurd (hm.distinct.eq_of_cell hcell hunique) hother)
        fun _ => hold
  | @havoc _ _ lv d o path hlv hwrite =>
    have hanything : ∀ u : Value, u = .addr .any ∨ u = .top → u.Scalar ∧ m.Admits u d := by
      rintro u (rfl | rfl)
      · exact ⟨Value.scalar_addr _, admits_any⟩
      · exact ⟨trivial, admits_top⟩
    change (s.storeLValue env lv _).Meets C _
    generalize hu : (if (env.lvalueType? lv).any Ty.isPointer then Value.addr .any else .top) = u
    obtain ⟨hscalar, hadmits⟩ := hanything u (by rw [← hu]; split <;> simp)
    refine (stores_storeLValue henv hm hs hscalar ha).mono ?_
    rintro t ⟨ht, hstores⟩
    exact ⟨ht, fun hd => hstores hd o path d m' hlv hadmits hwrite⟩
  | @alloc _ _ lv o fresh path hlv hbase hfresh hwrite =>
    have hadmits : m.Admits (.addr (.cell (.ofHeap env.edge))) (.pointer fresh []) := by
      refine admits_targets.2 (.inr ⟨fresh, [], rfl, SortedSet.mem_singleton.2 ?_⟩)
      rw [Memory.cell, hbase]
      rfl
    refine (stores_assignValue henv hm hs (Value.scalar_addr _) ha).mono ?_
    rintro t ⟨ht, hstores⟩
    exact ⟨ht, fun hd => hstores hd o path _ m' hlv hadmits hwrite⟩

lemma depicts_step (ha : a.isScalar) (hact : m.Acts env vars a m') :
    (s.step env a).Meets C fun t => t.Plain ∧ (s.Depicts m → t.Depicts m') := by
  unfold step
  split
  next hr =>
    refine meets_pure ⟨hs, fun hd => ?_⟩
    simp [hd.reachable] at hr
  next =>
    refine (depicts_act henv hm hs ha hact).map ?_
    rintro t ⟨ht, hdepicts⟩
    refine ⟨⟨ht.single, ht.flat.cells, ht.flat.copies, ht.flat.kept, ht.flat.relation⟩,
      fun hd => ?_⟩
    have htd := hdepicts hd
    refine ⟨?_, htd.cells⟩
    simp [htd.reachable, ht.flat.relation, Relation.isBottom]

end

end State

open Step State in
lemma depicts_transfer {ω : Type} {C : Contract} {m m' : Memory ω} {vars : String → ω} {g : Graph}
    {settings : Settings} {function : String} {context : Context} {id : Nat} {e : Edge} {s : State}
    (hg : g.Scalar) (hrel : settings.relation = .none) (hcontext : context.isModular = false)
    (he : e ∈ g.edges.toList) (hm : m.Hosts g function vars) (hs : s.Plain) (hd : s.Depicts m)
    (hact : m.Acts (.onEdge g settings function context id) vars e.action m') :
    (transfer g settings function context id e s).Meets C fun t => t.Plain ∧ t.Depicts m' := by
  have henv : (Env.onEdge g settings function context id).Whole := ⟨hcontext, hrel⟩
  have hstep := depicts_step (C := C) henv hm hs (hg.action e he) hact
  have htransfer : transfer g settings function context id e s =
      s.step (.onEdge g settings function context id) e.action := by
    unfold transfer
    rw [if_neg (by simp [hd.reachable])]
    generalize e.action = a at hact
    cases hact <;> rfl
  rw [htransfer]
  exact hstep.mono fun t ht => ⟨ht.1, ht.2 hd⟩

end StaticAnalysis
