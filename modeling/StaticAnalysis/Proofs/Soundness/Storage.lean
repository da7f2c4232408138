import StaticAnalysis.Proofs.Revision.Rerun
import StaticAnalysis.Proofs.Soundness.Transitions

/-!
# What a solver stores for sequential programs

All that a solver stores for a sequential integer program is numeric, in the ascent and in the
descent.  An evaluation runs in a store whose states stand still and whose shared values grow; the
contract `Solver.between` says so, and what holds of an evaluation under this contract holds of its
run (`Solver.result_of_run`) and of an evaluation that is settled (`Solver.Settled.result_between`).
-/

namespace StaticAnalysis

open Fault GlobalValue Summary

/-! ## Growing values -/

variable {function : String} {v w : GlobalValue}

/-- A shared value is a state that covers a moment of a run. -/
def GlobalValue.Covers (modular : Bool) (v : GlobalValue) (m : Moment) : Prop :=
  ∃ t, v = .state t ∧ t.Covers modular m

lemma covers_of_le {context : Context} (hv : (GlobalKey.entry function context).Fits v)
    (hw : (GlobalKey.entry function context).Fits w) (hwn : w.Numeric) (hle : v.le w = .ok true)
    {modular : Bool} {m : Moment} (h : v.Covers modular m) : w.Covers modular m := by
  obtain ⟨t, rfl, hcov⟩ := h
  by_cases hw' : w = .bottom
  · subst hw'
    have hbottom : t.isBottom = true := by
      injection hle
    simp [State.Flat.isBottom_eq hv.flat, hcov.reachable] at hbottom
  · cases hv.alike hw (by simp) hw' with
    | state ht hu => exact ⟨_, rfl, hcov.le ht hwn hle⟩

lemma GlobalKey.Fits.eq_summary (h : (GlobalKey.summary function).Fits v) (hv : v ≠ .bottom) :
    ∃ t : Summary, t.Flat ∧ v = .summary t := by
  cases v with
  | bottom => exact absurd rfl hv
  | summary t => exact ⟨t, h.flat, rfl⟩
  | _ => cases h.kind _ rfl

lemma GlobalKey.Fits.toSummary (h : (GlobalKey.summary function).Fits v) : v.toSummary.Flat := by
  cases v with
  | summary t => exact h.flat
  | _ => exact flat_bottom

lemma toSummary_le (hv : (GlobalKey.summary function).Fits v)
    (hw : (GlobalKey.summary function).Fits w) (hle : v.le w = .ok true) :
    v.toSummary.le w.toSummary = .ok true := by
  by_cases hv' : v = .bottom
  · subst hv'
    exact (Alike.summary flat_bottom hw.toSummary).le_of_isBottom rfl
  obtain ⟨s, hs, rfl⟩ := hv.eq_summary hv'
  by_cases hw' : w = .bottom
  · subst hw'
    exact (Alike.summary hs flat_bottom).le_of_isBottom hle
  · obtain ⟨t, -, rfl⟩ := hw.eq_summary hw'
    exact hle

lemma Summary.Accounts.refl {s : Summary} {m : Moment} : s.Accounts m m := .inr fun _ => .inl rfl

/-- What a summary explains is explained by a larger one. -/
lemma explains_of_le (hv : (GlobalKey.summary function).Fits v)
    (hw : (GlobalKey.summary function).Fits w) (hwn : w.Numeric) (hle : v.le w = .ok true) :
    (∀ m n, v.toSummary.Accounts m n → w.toSummary.Accounts m n) ∧
      ∀ k, v.toSummary.Returns k → w.toSummary.Returns k := by
  have ht := hwn.toSummary
  rcases (le_iff hv.toSummary ht.flat).1 (toSummary_le hv hw hle) with hany | hbelow
  · exact ⟨fun _ _ _ => .inl hany, fun _ _ => .inl hany⟩
  have hsome : ¬ v.toSummary.anything := by simp [hbelow.anything]
  refine ⟨fun m n h => .inr fun x => (h.resolve_left hsome x).imp_right ?_, fun k h => ?_⟩
  · rintro ⟨u, hu, hhas⟩
    obtain ⟨u', hu', hle⟩ := hbelow.writes _ u hu
    exact ⟨u', hu', Value.has_of_below hle (ht.writes _ u' hu').1.isAddr hhas⟩
  · obtain ⟨hreturns, hhas⟩ := h.resolve_left hsome
    exact .inr ⟨hbelow.returns hreturns, Value.has_of_below hbelow.ret ht.ret.isAddr hhas⟩

namespace Solver

variable {α : Type} {s t u : Solver} {p : Point} {x : Step α} {a : α} {P Q : α → Prop}

/-! ## Numeric solvers -/

/-- Everything a solver stores is numeric and fits its key. -/
structure Numeric (s : Solver) : Prop where
  flat : s.Flat
  states : ∀ p a, s.states.get? p = some a → a.Numeric
  globals : ∀ k, (s.globals.value k).Numeric

lemma Numeric.of_same (hs : s.Numeric) (hstates : t.states = s.states)
    (hglobals : t.globals = s.globals) : t.Numeric := by
  obtain ⟨⟨hflat, hfits⟩, hstate, hglobal⟩ := hs
  rw [← hstates] at hflat hstate
  rw [← hglobals] at hfits hglobal
  exact ⟨⟨hflat, hfits⟩, hstate, hglobal⟩

lemma numeric_contribute {k : GlobalKey} {v : GlobalValue} (hs : s.Numeric) (hk : k.Fits v)
    (hv : v.Numeric) (h : s.contribute k v = .ok t) : t.Numeric := by
  have hflat := (progress_contribute hs.flat hk h).1.flat
  rcases contribute_cases hs.flat hk h with ⟨-, rfl⟩ | ⟨bound, new, _, _, hbound, hnew, -, -, -, -,
    rfl⟩
  · exact hs
  replace hbound := hbound.elim (numeric_widen (hs.globals k) hv)
    (numeric_join (hs.globals k) hv)
  refine ⟨hflat, hs.states, fun l => ?_⟩
  dsimp only
  rw [value_insert]
  split
  · rcases hnew with rfl | rfl
    exacts [hbound, numeric_unknown]
  · exact hs.globals l

lemma Numeric.insert (hs : s.Numeric) {value : State} (hvalue : value.Numeric)
    {stateUpdates : SortedMap Point Nat} {worklist : SortedSet Point} :
    Numeric { s with states := s.states.insert p value, stateUpdates, worklist } := by
  have hstates : ∀ q a, (s.states.insert p value).get? q = some a → a.Numeric := by
    intro q a ha
    rw [SortedMap.get?_insert] at ha
    split at ha
    · cases ha
      exact hvalue
    · exact hs.states q a ha
  exact ⟨⟨fun q a ha => (hstates q a ha).flat, hs.flat.globals⟩, hstates, hs.globals⟩

lemma numeric_raise {new : State} {grew : Bool} (hs : s.Numeric) (hnew : new.Numeric)
    (h : s.raise p new = .ok (grew, t)) : t.Numeric := by
  rcases raise_cases h with ⟨_, -, -, rfl⟩ | ⟨-, -, rfl⟩ | ⟨old, value, _, hold, hvalue, rfl⟩
  · exact hs
  · exact hs.insert hnew
  · have hold' : old.Numeric := by
      rcases hold with hold | ⟨-, rfl⟩
      exacts [hs.states p old hold, State.numeric_unreachable]
    exact hs.insert (hvalue.elim (State.numeric_join hold' hnew)
      (State.numeric_widen_join hold' hnew))

/-! ## Evaluations -/

/-- What an evaluation that starts in `s` and ends in `t` finds: the states of `s`, and shared
values that are at least those of `s`.  All that it contributes is below the shared values of
`t`. -/
def between (s t : Solver) : Contract where
  answers k v := k.Fits v ∧ v.Numeric ∧ (s.globals.value k).le v = .ok true
  states p o := o = s.states.get? p ∧ ∀ a, o = some a → a.Numeric
  alike _ _ := False
  offers k v := k.Fits v ∧ v.Numeric
  accepted k v := v.le (t.globals.value k) = .ok true

lemma numeric_between : (between s t).Numeric :=
  ⟨fun _ _ h => h.2.1, fun _ _ h => h.2, fun _ _ => id, fun _ _ hk hv => ⟨hk, hv⟩⟩

/-- The run of a step gives what the step gives under the contract, and what is stored stays
numeric. -/
lemma result_of_run (hs : s.Numeric) (hflat : x.Meets .flat P) (hx : x.Meets (between s t) Q)
    (h : x.run s = .ok a t) : Q a ∧ t.Numeric := by
  -- In the middle of the run the solver is some `u`, with the states of `s` and more shared values.
  suffices hrun : ∀ (u : Solver), u.Numeric → u.states = s.states → Extends s u →
      x.run u = .ok a t → Q a ∧ t.Numeric from hrun s hs rfl (Progress.refl hs.flat).toExtends h
  clear h
  induction x with
  | done b =>
    intro u hu _ _ h
    cases h
    exact ⟨hx, hu⟩
  | fault f =>
    intro u _ _ _ h
    cases h
  | lookup k next ih =>
    intro u hu hstates hgrown h
    have hanswer := hu.flat.globals k
    have hprog := progress_lookup hu.flat k
    exact ih _ (hflat _ hanswer) (hx _ ⟨hanswer, hu.globals k, (hgrown.globals k).1⟩) (u.lookup k).2
      ⟨hprog.flat, hu.states, hu.globals⟩ hstates (hgrown.trans hprog.toExtends) h
  | stateAt q next ih =>
    intro u hu hstates hgrown h
    have hprog := progress_stateOf hu.flat q
    exact ih _ (hflat.2 _ fun b => hu.flat.states q b)
      (hx.2 _ ⟨congrArg (SortedMap.get? · q) hstates, fun b => hu.states q b⟩) (u.stateOf q).2
      ⟨hprog.flat, hu.states, hu.globals⟩ hstates (hgrown.trans hprog.toExtends) h
  | contribute k v next ih =>
    intro u hu hstates hgrown h
    obtain ⟨u', hu', h⟩ := Step.run_contribute h
    have hu'' := numeric_contribute hu hx.1.1 hx.1.2 hu'
    obtain ⟨hprog, hle, -, hstates'⟩ := progress_contribute hu.flat hx.1.1 hu'
    obtain ⟨-, hprog', -⟩ := progress_run hu''.flat (hflat.2 trivial) h
    exact ih (hflat.2 trivial) (hx.2 (hprog'.le_globals hx.1.1 hle)) u' hu''
      (hstates'.trans hstates) (hgrown.trans hprog.toExtends) h

lemma Settled.result_between (hs : s.Numeric) (hx : x.Meets (between s s) Q)
    (h : Settled s p x a) : Q a := by
  induction x with
  | done b => exact h ▸ hx
  | fault f => exact absurd h id
  | lookup k next ih =>
    have hk := hs.flat.globals k
    exact ih _ (hx _ ⟨hk, hs.globals k, le_self hk⟩) h.2
  | stateAt q next ih => exact ih _ (hx.2 _ ⟨rfl, fun b => hs.states q b⟩) h.2
  | contribute k v next ih => exact ih (hx.2 h.1) h.2

/-! ## Stages -/

/-- A solver of a sequential integer program. -/
structure Sequential (s : Solver) : Prop where
  graph : s.graph.Sequential
  settings : s.settings.relation = .none
  numeric : s.Numeric

lemma Sequential.plain (hs : s.Sequential) : s.Plain :=
  ⟨hs.graph.scalar, hs.settings, hs.numeric.flat⟩

lemma Sequential.evaluatePoint {r : State} {Q : State → Prop} (hs : s.Sequential)
    (h : s.evaluatePoint p = .ok (r, t))
    (hQ : (evaluate s.graph s.settings p).Meets (between s t) Q) :
    Q r ∧ r.Numeric ∧ t.Sequential ∧ Progress s t ∧ t.states = s.states := by
  have hrun := evaluatePoint_eq h
  have hstart : Numeric { s with point := p, evaluations := s.evaluations + 1 } :=
    hs.numeric.of_same rfl rfl
  obtain ⟨hr, ht⟩ := result_of_run (t := t) hstart (hs.plain.evaluate p)
    (numeric_evaluate numeric_between hs.graph hs.settings p) hrun
  obtain ⟨-, hprog, hstates, -⟩ := hs.plain.evaluatePoint h
  exact ⟨(result_of_run hstart (hs.plain.evaluate p) hQ hrun).1, hr,
    ⟨hprog.graph ▸ hs.graph, hprog.settings ▸ hs.settings, ht⟩, hprog, hstates⟩

lemma Sequential.ascend {changed : Bool} (hs : s.Sequential) (h : s.ascend = .ok (changed, t)) :
    t.Sequential ∧ Grows s t := by
  have hgrows := (ascendWith_induct (P := fun _ => True) hs.plain (fun _ _ _ _ _ _ =>
    trivial) trivial h).2.1
  refine ⟨(ascendWith_rounds (fun s p s₁ r u grew t hnext hs heval hraise => ?_) hs h).1, hgrows⟩
  obtain ⟨-, rfl⟩ := next?_eq hnext
  have hs' : Sequential { s with worklist := s.worklist.erase p } :=
    ⟨hs.graph, hs.settings, hs.numeric.of_same rfl rfl⟩
  obtain ⟨-, hr, hu, -⟩ := hs'.evaluatePoint (Q := fun _ => True) heval
    ((numeric_evaluate numeric_between hs.graph hs.settings p).mono fun _ _ => trivial)
  have hprog := (progress_raise hu.numeric.flat hr.flat hraise).1
  exact ⟨hprog.graph ▸ hu.graph, hprog.settings ▸ hu.settings, numeric_raise hu.numeric hr hraise⟩

end Solver
end StaticAnalysis
