import StaticAnalysis.Proofs.Soundness.IntegerEvaluation

/-!
# Refinement of integer states

Restricting a state to the runs in which a condition holds loses nothing that is seen while it
holds, and refining the operands of an expression by a target loses nothing in which the expression
yields a member of the target.  Here is what the recursion of refinement comes down to
(`refines_integers`).
-/

namespace StaticAnalysis

open IntVal

namespace State

open Step

variable {K : Family} {C : Contract} {env : Env} {names : String → Bool} {view : View} {s : State}

/-! ## Variables -/

variable {x target y : IntVal} {r : IntVal × IntVal} {op : CmpOp}

lemma meetTarget_spec {x u : Value} (hx : x.Integral) (ht : target.WellFormed)
    (h : meetTarget env x (.int target) = .ok (some u)) :
    ∃ i, u = .int i ∧ i.Tight ∧ ∀ n, x.Has n → target.contains n → i.contains n := by
  rcases hx.cases with rfl | rfl | ⟨i, rfl, hi⟩
  · cases h
  · obtain ⟨r, hr, h⟩ := Fault.bind_eq_ok.1 h
    cases h
    exact ⟨r, rfl, tight_restrict ht hr, fun n _ hn => contains_restrict ht hn hr⟩
  · obtain ⟨k, hk, h⟩ := Fault.bind_eq_ok.1 h
    obtain ⟨r, hr, h⟩ := Fault.bind_eq_ok.1 h
    cases h
    have hkt := (tight_meet hi ht hk).wellFormed
    refine ⟨r, rfl, tight_restrict hkt hr, fun n hm hn => ?_⟩
    exact contains_restrict hkt (contains_meet hi ht hm hn hk) hr

lemma refineCell_cases (henv : env.settings.relation = .none) (hs : s.Integral) {c : Cell}
    {v : Value} {r : State} (h : s.refineCell env c v = .ok r) :
    r = s ∨ ofCaller env c = false ∧ s.set c v = .ok r := by
  unfold refineCell at h
  split at h
  · cases h
    exact .inl rfl
  next hcaller =>
    simp only [hs.single, Bool.false_and, Bool.false_eq_true, if_false] at h
    obtain ⟨t, ht, h⟩ := Fault.bind_eq_ok.1 h
    have htracked : ∀ name, t.tracked env name = false := fun name => by simp [tracked, henv]
    simp only [htracked, Bool.false_eq_true, and_false, if_false] at h
    have : r = t := by
      split at h <;> (cases h; rfl)
    exact .inr ⟨by simpa using hcaller, this ▸ ht⟩

lemma restricts_refineVar (hview : view.Fits C env names) (henv : env.settings.relation = .none)
    (hs : K.states s) {x : String} (hx : names x) (ht : target.WellFormed) :
    (s.refineLValue env (.var x) (.int target)).Meets C
      ((K.reading names view).Restricts s (target.contains (view.read x))) := by
  unfold refineLValue
  rw [resolve_var, pure_bind]
  dsimp only
  split
  · exact meets_pure (.refl hs)
  refine (gives_loadCell hview hs hx).bind fun y hy => ?_
  refine (meets_lift (Q := fun o => ∀ u, o = some u → ∃ i, u = .int i ∧ i.Tight ∧ ∀ n, y.Has n →
    target.contains n = true → i.contains n = true) ?_).bind fun o ho => ?_
  · rintro o ho u rfl
    exact meetTarget_spec (integral_of_gives hy) ht ho
  cases o with
  | none => exact meets_pure (.refl hs)
  | some u =>
    obtain ⟨i, rfl, hi, hmem⟩ := ho u rfl
    have hcontains : s.Describes view → target.contains (view.read x) = true →
        i.contains (view.read x) = true :=
      fun hd => hmem _ (hy.has hd _ rfl)
    change ((if i.isBottom then pure s.stop else liftM (s.refineCell env (env.varCell x) (.int i))) :
      Step State).Meets C _
    split
    next hbottom =>
      refine meets_pure ⟨K.stop hs, fun hd hin => ?_⟩
      simp [isBottom_of_contains (hcontains hd hin)] at hbottom
    next =>
      refine meets_lift fun r hr => ?_
      rcases refineCell_cases henv (K.states_integral hs) hr with rfl | ⟨hcaller, hset⟩
      · exact .refl hs
      · refine ⟨K.set hs (K.int hi) hset, fun hd hin => ?_⟩
        exact hd.set (v := .int i) (hview.content_eq x hx hcaller) (hcontains hd hin) hset

/-! ## Targets -/

lemma contains_comparisonTargets {i j : Int} (hx : x.WellFormed) (hy : y.WellFormed)
    (hi : x.contains i) (hj : y.contains j) (hif : Word.fits i)
    (hjf : Word.fits j) (hop : op.holds i j) (h : comparisonTargets op x y = .ok r) :
    r.1.contains i ∧ r.2.contains j := by
  cases op <;> simp only [CmpOp.holds, decide_eq_true_eq, beq_iff_eq, bne_iff_ne] at hop <;>
    obtain ⟨p, hp, h⟩ := Fault.bind_eq_ok.1 h <;> obtain ⟨q, hq,
      h⟩ := Fault.bind_eq_ok.1 h <;> cases h
  case eq =>
    subst hop
    exact ⟨contains_meet hx hy hi hj hp, contains_meet hy hx hj hi hq⟩
  case ne =>
    exact ⟨contains_restrictNe hx hi hj hop hif hp, contains_restrictNe hy hj hi hop.symm hjf hq⟩
  case lt =>
    exact ⟨contains_restrictLt hx hi hj hop hif hp, contains_restrictGt hy hj hi hop hjf hq⟩
  case le =>
    exact ⟨contains_restrictLe hx hy hi hj hop hp, contains_restrictGe hy hx hj hi hop hq⟩
  case gt =>
    exact ⟨contains_restrictGt hx hi hj hop hif hp, contains_restrictLt hy hj hi hop hjf hq⟩
  case ge =>
    exact ⟨contains_restrictGe hx hy hi hj hop hp, contains_restrictLe hy hx hj hi hop hq⟩

lemma wellFormed_comparisonTargets (hx : x.WellFormed) (hy : y.WellFormed)
    (h : comparisonTargets op x y = .ok r) : r.1.WellFormed ∧ r.2.WellFormed := by
  obtain ⟨hp, hq⟩ := comparisonTargets_cases hx hy h
  exact ⟨hp.elim (fun h => h ▸ hx) IntVal.Tight.wellFormed,
    hq.elim (fun h => h ▸ hy) IntVal.Tight.wellFormed⟩

lemma refines_integers (hview : view.Fits C env names) (henv : env.settings.relation = .none) :
    (K.reading names view).Refines C env where
  eval := Reading.gives_eval (evaluates_integers hview)
  evalCond := Reading.judges_evalCond (evaluates_integers hview)
  stop := K.stop
  join hs ht h := ⟨K.join hs ht h, fun hd => .join hd (K.states_integral hs)
    (K.states_integral ht) h⟩
  isBottom hs hd := by
    simp [isBottom, hd.reachable, (K.states_integral hs).relation, Relation.isBottom]
  tight h := h.wellFormed
  dividends ht hbottom hr h := (tight_dividends (ht.fits_constant? hbottom hr) h).wellFormed
  comparison hx hy := wellFormed_comparisonTargets (K.values_integral hx).toInt
    (K.values_integral hy).toInt
  hits hx hy h := by
    rintro hd ⟨i, j, hi, hj, hop⟩
    have hmem := contains_comparisonTargets (integral_of_gives hx).toInt (integral_of_gives hy).toInt
      (Value.has_toInt (hx.has hd i hi)) (Value.has_toInt (hy.has hd j hj)) hi.admissible.1
      hj.admissible.1 hop h
    exact ⟨⟨i, hi, hmem.1⟩, ⟨j, hj, hmem.2⟩⟩
  lvalue hs he ht := by
    obtain ⟨x, rfl, hx⟩ := LValue.exists_var_of_isOver he
    refine (restricts_refineVar hview henv hs hx ht).mono fun r hr => hr.imp ?_
    rintro - ⟨n, hn, hin⟩
    exact hn.1 ▸ hin
  addrs _ _ _ hx hy haddr := by simp [(integral_of_gives hx).isAddr,
    (integral_of_gives hy).isAddr] at haddr
  relation hs h := by
    simp only [guardRelation, (K.states_integral hs).relation, Relation.isEnabled, Bool.not_false,
      Bool.or_true, if_true] at h
    cases h
    exact .refl hs

/-! ## Arbitrary states -/

lemma fits_ofCells (env : Env) (memory : Cell → Int) :
    (View.ofCells env memory).Fits .free env fun _ => true :=
  ⟨fun _ _ _ => rfl, fun _ => trivial⟩

lemma eq_of_admits {t : Truth} {b : Bool} (h : t.Admits b) :
    (t = .true → b) ∧ (t = .false → b = false) := by
  rcases h with rfl | rfl
  · exact ⟨nofun, nofun⟩
  · cases b <;> exact ⟨by decide, by decide⟩

/-- Evaluation, truth, guards and checks are sound in every state of one thread whose cells hold
integers.  Nothing is asked of how the two components of an integer fit together, of the domains
that are switched on, or of the store.  A guard that holds leaves the memory described, so the state
it leaves is reachable. -/
theorem integer_operations_sound {ς : Type} [SharedStore ς] (store store' : ς)
    (henv : env.settings.relation = .none) (hs : s.Integral) {memory : Cell → Int}
    (hm : s.Describes (.ofCells env memory)) {e : Expr} (he : e.isOver (fun _ => true) = true)
    {c : Cond} (hc : c.isOver (fun _ => true) = true) :
    (∀ v, (s.eval env e).run store = .ok v store' →
      ∀ n, e.Yields (fun x => memory (env.varCell x)) n → v.Has n) ∧
    (∀ t, (s.evalCond env c).run store = .ok t store' →
      ∀ b, c.Outcome (fun x => memory (env.varCell x)) b →
        (t = .true → b = true) ∧ (t = .false → b = false)) ∧
    (∀ r, (guard env true c s).run store = .ok r store' →
      c.Outcome (fun x => memory (env.varCell x)) true → r.Describes (.ofCells env memory)) ∧
    ∀ t, (s.check env c).run store = .ok t store' →
      ∀ b, c.Outcome (fun x => memory (env.varCell x)) b →
        (t = .true → b = true) ∧ (t = .false → b = false) := by
  have hrefines := refines_integers (K := .integral) (fits_ofCells env memory) henv
  refine ⟨fun v hv n hn => ?_, fun t ht b hb => ?_, fun r hr hb => ?_, fun t ht b hb => ?_⟩
  · exact ((hrefines.eval hs e he).run hv).has hm n hn
  · exact eq_of_admits ((hrefines.evalCond hs c hc).run ht hm b hb)
  · exact ((Reading.restricts_guard hrefines true c hc hs).run hr).describes hm hb
  · exact eq_of_admits ((Reading.judges_check hrefines hs hc).run ht hm b hb)

/-- The function `main` of a program without declarations. -/
def bareMain : Env where
  graph := {}
  settings := {}
  function := "main"
  thread := .main
  edge := 0
  modular := false

/-- An odd number in `x`, with ends that are not odd. -/
def oddToTen : State :=
  { unknown .none with
    cells := .singleton (.ofLocal "main" "x") (.int ⟨⟨.finite 0, .finite 10⟩, .residue 1 2⟩) }

lemma integral_oddToTen : oddToTen.Integral := by
  refine ⟨rfl, rfl, fun c v hv => ?_⟩
  rw [oddToTen, SortedMap.get?_singleton] at hv
  split at hv
  · cases hv
    exact ⟨⟨Bound.fits_finite.2 (by decide), Bound.fits_finite.2 (by decide), by decide, by decide⟩,
      by decide, by decide, by decide, by decide⟩
  · cases hv

lemma describes_oddToTen : oddToTen.Describes (.ofCells bareMain fun _ => 7) := by
  refine ⟨rfl, fun c v hv => ⟨7, rfl, ?_⟩⟩
  rw [oddToTen, SortedMap.get?_singleton] at hv
  split at hv
  · cases hv
    show IntVal.contains _ 7 = true
    decide
  · cases hv

/-- With `7` in `x`, the value of `x * 3` has `21`, and the state is left by the guard
`x / 2 == 3`. -/
theorem integer_operations_sound_oddToTen :
    (∃ v, (oddToTen.eval bareMain (.arith .mul (.var "x") (.const 3))).run (.empty : GlobalMap) =
      .ok v .empty ∧ v.Has 21) ∧
    ∃ r, (guard bareMain true (.cmp .eq (.arith .div (.var "x") (.const 2)) (.const 3)) oddToTen).run
        (.empty : GlobalMap) = .ok r .empty ∧ r.Describes (.ofCells bareMain fun _ => 7) := by
  have h := integer_operations_sound (.empty : GlobalMap) .empty rfl integral_oddToTen
    describes_oddToTen (e := .arith .mul (.var "x") (.const 3)) (by decide)
    (c := .cmp .eq (.arith .div (.var "x") (.const 2)) (.const 3)) (by decide)
  have hx : (Expr.var "x").Yields (fun _ => 7) 7 := ⟨rfl, by decide⟩
  refine ⟨⟨_, rfl, h.1 _ rfl 21 ?_⟩, ⟨_, rfl, h.2.2.1 _ rfl ?_⟩⟩
  · exact ⟨7, 3, hx, ⟨rfl, by decide⟩, rfl, by decide⟩
  · exact ⟨3, 3, ⟨7, 2, hx, ⟨rfl, by decide⟩, rfl, by decide⟩, ⟨rfl, by decide⟩, rfl⟩

end State
end StaticAnalysis
