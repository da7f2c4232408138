import StaticAnalysis.Proofs.Soundness.Refinement

/-!
# Actions cover runs

The state after an action covers what a run may come to by it.  In a function that is analysed
without its callers, whatever the action writes to a global goes into the function's summary.
-/

namespace StaticAnalysis

open Bool Moment Option

/-- In a function that is analysed without its callers, what a run changes from `m` to `n` in the
globals was accepted as an effect of the function. -/
def Recorded (C : Contract) (env : Env) (m n : Moment) : Prop :=
  env.modular = true → ∀ x, n.globals x = m.globals x ∨ ∃ v : Value, v.Has (n.globals x) ∧
    v.Numeric ∧ C.accepted (.summary env.function) (.summary (.ofWrite (.ofGlobal x) v))

lemma Recorded.trans {C : Contract} {env : Env} {m n o : Moment} (hmn : Recorded C env m n)
    (hno : Recorded C env n o) : Recorded C env m o := by
  intro hmod x
  rcases hno hmod x with hx | hx
  · rw [hx]
    exact hmn hmod x
  · exact .inr hx

namespace State

/-- The state after a transition: it is numeric, and covers all that a run may come to by the
transition, which `P` describes. -/
structure Leads (C : Contract) (env : Env) (s : State) (m : Moment) (P : Moment → Prop)
    (r : State) : Prop where
  numeric : r.Numeric
  covers : s.Covers env.modular m → ∀ n, P n → r.Covers env.modular n
  recorded : s.Covers env.modular m → ∀ n, P n → Recorded C env m n

open Step

variable {C : Contract} {env : Env} {s r : State} {m n : Moment} {P : Moment → Prop} {v : Value}

lemma Leads.imp {Q : Moment → Prop} (h : Leads C env s m P r)
    (hQP : s.Covers env.modular m → ∀ n, Q n → P n) : Leads C env s m Q r :=
  ⟨h.numeric, fun hcov n hn => h.covers hcov n (hQP hcov n hn),
    fun hcov n hn => h.recorded hcov n (hQP hcov n hn)⟩

lemma leads_of_none (hr : r.Numeric) (h : s.Covers env.modular m → ∀ n, ¬ P n) :
    Leads C env s m P r :=
  ⟨hr, fun hcov n hn => absurd hn (h hcov n), fun hcov n hn => absurd hn (h hcov n)⟩

variable {Q : Prop} {modular : Bool} {g : Graph} {x : String} {k : Int} {c : Cell} {K : Int → Prop}
  {a : Action}

lemma Keeps.leads (h : Keeps env s m Q r) : Leads C env s m (fun n => Q ∧ n = m) r := by
  refine ⟨h.numeric, ?_, ?_⟩
  · rintro hcov _ ⟨hQ, rfl⟩
    exact h.covers hcov hQ
  · rintro - _ ⟨-, rfl⟩ - x
    exact .inl rfl

lemma Leads.seq {t : State} (h : Leads C env s m (fun o => Q ∧ o = n) r)
    (h' : Leads C env r n P t) : Leads C env s m (fun o => Q ∧ P o) t := by
  refine ⟨h'.numeric, fun hcov o ho => ?_, fun hcov o ho => ?_⟩
  · exact h'.covers (h.covers hcov n ⟨ho.1, rfl⟩) o ho.2
  · exact (h.recorded hcov n ⟨ho.1, rfl⟩).trans (h'.recorded (h.covers hcov n ⟨ho.1, rfl⟩) o ho.2)

/-! ## Stores -/

lemma content?_write
    (hc : c ≠ if g.isLocalIn m.function x then .ofLocal m.function x else .ofGlobal x) :
    (m.write g x k).content? modular c = m.content? modular c := by
  unfold Moment.write
  split at hc
  next hl =>
    rw [if_pos hl]
    refine content?_congr rfl (fun y hy => ?_) fun _ _ => rfl
    have hxy : y ≠ x := fun h => hc (h ▸ hy)
    simp [held, Function.update_of_ne hxy]
  next hl =>
    rw [if_neg hl]
    refine content?_congr rfl (fun _ _ => rfl) fun y hy => ?_
    exact Function.update_of_ne (fun h : y = x => hc (h ▸ hy)) _ _

lemma read_write : (m.write g x k).read g x = k := by
  unfold Moment.read
  rw [Occurs.function_write]
  unfold Moment.write
  split <;> simp

lemma varCell_eq (hm : m.function = env.function) (x : String) :
    env.varCell x = if env.graph.isLocalIn
    m.function x then .ofLocal m.function x else .ofGlobal x := by
  rw [hm]
  rfl

lemma Covers.write (hcov : s.Covers modular m)
    (hc : c = if g.isLocalIn m.function x then .ofLocal m.function x else .ofGlobal x)
    (hk : (m.write g x k).content? modular c = some k) (hv : v.Has k) (h : s.set c v = .ok r) :
    r.Covers modular (m.write g x k) := by
  obtain ⟨cells, rfl, hcells⟩ := set_spec h
  refine ⟨hcov.reachable, fun d w hw => ?_⟩
  rcases hcells d w hw with ⟨rfl, rfl⟩ | ⟨hne, hw⟩
  · exact ⟨k, hk, hv⟩
  · obtain ⟨i, hi, hwi⟩ := hcov.cells d w hw
    exact ⟨i, (content?_write (hc ▸ hne)).trans hi, hwi⟩

lemma Recorded.write (hm : m.function = env.function)
    (h : env.isLocal x = false → env.modular → ∃ v : Value, v.Has k ∧ v.Numeric ∧
      C.accepted (.summary env.function) (.summary (.ofWrite (.ofGlobal x) v))) :
    Recorded C env m (m.write env.graph x k) := by
  intro hmod y
  unfold Moment.write
  rw [hm]
  split
  next => exact .inl rfl
  next hl =>
    have hl' : env.isLocal x = false := eq_false_iff.2 hl
    by_cases hxy : y = x
    · subst hxy
      exact .inr (by simpa using h hl' hmod)
    · exact .inl (by simp [Function.update_of_ne hxy])

lemma setCell_eq (henv : env.Sequential) (hs : s.Numeric) {strong : Bool}
    (hc : ofCaller env c = false) :
    s.setCell env c v strong = (do liftM (s.set c (← liftM (weaken strong v (s.get c))))) := by
  unfold setCell
  rw [if_neg (by simp [hc])]
  simp only [hs.single, Bool.false_and, false_eq_true, if_false, pure_bind]
  split
  next => rfl
  next =>
    congr 1
    funext u
    conv_rhs => rw [← bind_pure (liftM (s.set c u) : Step State)]
    congr 1
    funext r
    rw [syncRelation_eq henv.scalar]
    rfl

lemma ofCaller_varCell (h : ofCaller env (env.varCell x)) :
    env.modular ∧ env.isLocal x = false ∧ env.varCell x = .ofGlobal x := by
  unfold ofCaller Env.varCell at h
  cases hl : env.isLocal x with
  | true => simp [hl, Cell.ofLocal, Cell.isGlobal, Cell.isOpaque, Base.rank] at h
  | false =>
    simp only [and_eq_true] at h
    exact ⟨h.1, rfl, by simp [Env.varCell, hl]⟩

lemma isBottom_eq_of_numeric (hv : v.Numeric) : v.isBottom = .ok v.isVoid := by
  rcases hv.cases with rfl | rfl | ⟨i, rfl, -⟩ <;> rfl

lemma varType_eq (henv : env.Sequential) (x : String) : env.varType x = .int := by
  unfold Env.varType Env.varCell
  cases hl : env.isLocal x with
  | true =>
    rw [if_pos rfl]
    simp only [Graph.cellType?, Cell.ofLocal, bind_some, Graph.partType?, getD_some]
    cases hf : env.graph.function? env.function with
    | none => rfl
    | some f =>
      simp only [bind_some]
      cases hd : f.varType? x with
      | none => rfl
      | some ty =>
        obtain ⟨d, hfind, rfl⟩ := map_eq_some_iff.1 hd
        have hint := henv.graph.declared _ f hf d (List.mem_of_find?_eq_some hfind)
        simp only [VarDecl.isInteger, and_eq_true, beq_iff_eq] at hint
        exact hint.1
  | false =>
    rw [if_neg (by simp)]
    simp only [Env.isLocal, or_eq_false_iff, not_eq_false'] at hl
    obtain ⟨d, hd⟩ := isSome_iff_exists.1 hl.2
    rw [Graph.cellType?_global hd]
    exact (henv.graph.globals x d hd).1

lemma leads_ret (hs : s.Numeric) (hm : m.function = env.function) (hv : Evaluates env s m K v)
    (h : s.set (retCell env.function) v = .ok r) :
    Leads C env s m (fun n => ∃ k, K k ∧ n = { m with result := k }) r := by
  refine ⟨numeric_set hs hv.numeric h, ?_, ?_⟩
  · rintro hcov _ ⟨k, hk, rfl⟩
    obtain ⟨cells, rfl, hcells⟩ := set_spec h
    refine ⟨hcov.reachable, fun c w hw => ?_⟩
    rcases hcells c w hw with ⟨rfl, rfl⟩ | ⟨hne, hw⟩
    · refine ⟨k, ?_, hv.has hcov k hk⟩
      rw [retCell, ← hm]
      exact content?_local.trans (by simp [held])
    · obtain ⟨i, hi, hwi⟩ := hcov.cells c w hw
      refine ⟨i, hi ▸ content?_congr rfl (fun y hy => ?_) fun _ _ => rfl, hwi⟩
      have hret : y ≠ retName := by
        rintro rfl
        exact hne (hy.trans (by rw [hm]; rfl))
      simp [held, hret]
  · rintro - _ ⟨k, -, rfl⟩ - x
    exact .inl rfl

lemma leads_refl (hs : s.Numeric) : Leads C env s m (fun n => n = m) s :=
  (Keeps.leads (Q := True) (Keeps.refl hs)).imp fun _ _ hn => ⟨trivial, hn⟩

section

variable (hC : C.Numeric) (henv : env.Sequential) (hs : s.Numeric) (hm : m.function = env.function)
include hC henv hs hm

section

variable (hx : isVariable x) (hv : Evaluates env s m K v)
include hx hv

lemma leads_setVar : (s.setCell env (env.varCell x) v true).Meets C
      (Leads C env s m fun n => ∃ k, K k ∧ n = m.write env.graph x k) := by
  cases hcaller : ofCaller env (env.varCell x) with
  | true =>
    obtain ⟨hmod, hl, hcell⟩ := ofCaller_varCell hcaller
    unfold setCell
    rw [if_pos hcaller, hcell]
    refine (meets_recordEffect hC (Summary.numeric_ofWrite x hv.numeric)).bind fun _ haccepted => ?_
    refine meets_pure ⟨hs, ?_, ?_⟩
    · rintro hcov _ ⟨k, -, rfl⟩
      refine ⟨hcov.reachable, fun c w hw => ?_⟩
      obtain ⟨i, hi, hwi⟩ := hcov.cells c w hw
      refine ⟨i, ?_, hwi⟩
      rw [content?_write, hi]
      rw [← varCell_eq hm, hcell]
      rintro rfl
      simp [hmod, content?, Cell.ofGlobal] at hi
    · rintro hcov _ ⟨k, hk, rfl⟩
      exact Recorded.write hm fun _ _ => ⟨v, hv.has hcov k hk, hv.numeric, haccepted⟩
  | false =>
    rw [setCell_eq henv hs hcaller]
    refine meets_lift_bind fun u hu => ?_
    cases hu
    refine meets_lift fun r hr => ⟨numeric_set hs hv.numeric hr, ?_, ?_⟩
    · rintro hcov _ ⟨k, hk, rfl⟩
      refine hcov.write (varCell_eq hm x) ?_ (hv.has hcov k hk) hr
      rw [content?_varCell (Occurs.function_write.trans hm) hx hcaller, read_write]
    · rintro - _ ⟨k, -, rfl⟩
      refine Recorded.write hm fun hl hmod => ?_
      simp [ofCaller, Env.varCell, hl, hmod, Cell.ofGlobal, Cell.isGlobal, Base.rank] at hcaller

lemma leads_storeVar : (s.storeLValue env (.var x) v).Meets C
      (Leads C env s m fun n => ∃ k, K k ∧ n = m.write env.graph x k) := by
  have hstore : s.storeLValue env (.var x) v = s.setCell env (env.varCell x) v true := by
    have hunique : (env.varCell x).base.isUnique = true := by
      unfold Env.varCell
      split <;> rfl
    unfold storeLValue
    rw [resolve_var, pure_bind]
    dsimp only [store, Place.ofCell]
    rw [List.foldlM_cons, hunique]
    exact bind_pure _
  rw [hstore]
  exact leads_setVar hC henv hs hm hx hv

/-! ## Assignments -/

lemma leads_assignValue : (s.assignValue env (.var x) v).Meets C
      (Leads C env s m fun n => ∃ k, K k ∧ n = m.write env.graph x k) := by
  unfold assignValue
  rw [trackedVar?_eq_none henv.scalar, isBottom_eq_of_numeric hv.numeric]
  change ((if v.isVoid then pure s.stop else s.storeLValue env (.var x) v) : Step State).Meets C _
  split
  next hvoid =>
    refine meets_pure (leads_of_none (numeric_stop hs) ?_)
    rintro hcov _ ⟨k, hk, -⟩
    simp [Value.isVoid_of_has (hv.has hcov k hk)] at hvoid
  next => exact leads_storeVar hC henv hs hm hx hv

end

lemma leads_assign (hx : isVariable x) {e : Expr} (he : e.isInteger) :
    (s.assign env (.var x) e).Meets C
      (Leads C env s m fun n => ∃ k, e.Yields (m.read env.graph) k ∧
      n = m.write env.graph x k) := by
  have hscalar : s.assign env (.var x) e = s.assignScalar env (.var x) e := by
    unfold assign Graph.nesting assignWithin
    simp [Env.lvalueType?, varType_eq henv]
  rw [hscalar]
  unfold assignScalar
  refine (evaluates_eval hC hs hm e he).bind fun v hv => ?_
  have hassign := leads_assignValue hC henv hs hm hx hv
  unfold assignValue at hassign
  rw [trackedVar?_eq_none henv.scalar] at hassign ⊢
  exact hassign

/-! ## Actions -/

lemma leads_act (ha : a.isSequential) :
    (s.act env a).Meets C (Leads C env s m (Moment.Acts env.graph a m)) := by
  cases a with
  | skip =>
    refine meets_pure ((leads_refl hs).imp ?_)
    rintro - _ ⟨⟩
    rfl
  | assign lv e =>
    simp only [Action.isSequential, and_eq_true] at ha
    obtain ⟨x, rfl, hx⟩ := LValue.exists_var ha.1
    refine (leads_assign hC henv hs hm hx ha.2).mono fun r hr => hr.imp ?_
    rintro - _ ⟨⟩
    next k hk => exact ⟨k, hk, rfl⟩
  | guard c =>
    refine (keeps_guard hC henv hm true c ha hs).mono fun r hr => hr.leads.imp ?_
    rintro - _ ⟨⟩
    next hc => exact ⟨hc, rfl⟩
  | check id c =>
    refine (decides_evalCond hC hs hm c ha).bind fun _ _ => meets_pure ((leads_refl hs).imp ?_)
    rintro - _ ⟨⟩
    rfl
  | call target callee args => exact meets_pure ((leads_refl hs).imp fun _ _ hn => by cases hn)
  | ret e =>
    cases e with
    | none =>
      refine meets_pure ((leads_refl hs).imp ?_)
      rintro - _ ⟨⟩
      rfl
    | some e =>
      refine (evaluates_eval hC hs hm e ha).bind fun v hv => meets_lift fun r hr => ?_
      refine (leads_ret hs hm hv hr).imp ?_
      rintro - _ ⟨⟩
      next k hk => exact ⟨k, hk, rfl⟩
  | havoc lv =>
    obtain ⟨x, rfl, hx⟩ := LValue.exists_var ha
    have htop : Evaluates env s m (fun _ => True) .top := ⟨Value.numeric_top, fun _ _ _ => trivial⟩
    have hvalue : (if (env.lvalueType? (.var x)).any Ty.isPointer then Value.addr .any else .top) =
        .top := by
      simp [Env.lvalueType?, varType_eq henv, Ty.isPointer]
    dsimp only [act]
    rw [hvalue]
    refine (leads_storeVar hC henv hs hm hx htop).mono fun r hr => hr.imp ?_
    rintro - _ ⟨⟩
    next k _ => exact ⟨k, trivial, rfl⟩
  | _ => simp [Action.isSequential] at ha

lemma leads_step (ha : a.isSequential) :
    (s.step env a).Meets C (Leads C env s m (Moment.Acts env.graph a m)) := by
  unfold step
  split
  next hr => exact meets_pure (leads_of_none hs fun hcov => by simp [hcov.reachable] at hr)
  · refine (leads_act hC henv hs hm ha).map fun r hr => ?_
    have hbottom : r.relation.isBottom = false := by
      rw [hr.numeric.flat.relation]
      rfl
    have hsame : { r with reachable := r.reachable && !r.relation.isBottom } = r := by
      simp [hbottom]
    rwa [hsame]

end

end State
end StaticAnalysis
