import StaticAnalysis.Proofs.Solver.Progress
import StaticAnalysis.Proofs.Transfer.FlatEdges

/-!
# The worklist invariant

While a solver ascends, every point that has a state is on the worklist or *stable*: evaluated
against what is stored, its equation gives a state below the stored one and contributes nothing new,
and the point is noted as a reader of everything the evaluation reads.  All changes in the middle of
an evaluation are covered by one argument: a value that changes after it was read wakes its reader.

When the worklist is empty, all points are stable.
-/

namespace StaticAnalysis

open AnalysisError Fault List SortedMap SortedSet State

lemma AnalysisError.ofFault_eq_ok {α : Type} {x : Except Fault α} {a : α} :
    ofFault x = .ok a ↔ x = .ok a := by
  cases x <;> simp [ofFault]

namespace Solver

variable {α : Type} {s t : Solver} {p : Point} {x : Step α} {a : α} {Q : α → Prop}

/-! ## Steps against what is stored -/

/-- A step that `p` takes against what is stored gives `a`: it contributes nothing new, and `p` is
noted as a reader of everything it reads. -/
def Settled (s : Solver) (p : Point) : Step α → α → Prop
  | .done b, a => b = a
  | .fault _, _ => False
  | .lookup k next, a => p ∈ s.readers.ofGlobal k ∧ Settled s p (next (s.globals.value k)) a
  | .stateAt q next, a => p ∈ s.readers.ofState q ∧ Settled s p (next (s.states.get? q)) a
  | .contribute k v next, a => v.le (s.globals.value k) = .ok true ∧ Settled s p next a

lemma Settled.of_same (hreaders : t.readers = s.readers) (hglobals : t.globals = s.globals)
    (hstates : t.states = s.states) (h : Settled s p x a) : Settled t p x a := by
  induction x with
  | done b => exact h
  | fault f => exact h
  | lookup k next ih => exact ⟨hreaders ▸ h.1, hglobals ▸ ih _ h.2⟩
  | stateAt q next ih => exact ⟨hreaders ▸ h.1, hstates ▸ ih _ h.2⟩
  | contribute k v next ih => exact ⟨hglobals ▸ h.1, ih h.2⟩

/-- What was settled stays so unless its point is woken. -/
lemma Settled.progress (hst : Progress s t) (hx : x.Meets .flat Q) (h : Settled s p x a) :
    p ∈ t.worklist ∨ Settled t p x a := by
  induction x with
  | done b => exact .inr h
  | fault f => exact absurd h id
  | lookup k next ih =>
    rcases hst.globalsWake k with hsame | hwake
    · refine (ih _ (hx _ (hst.source.globals k)) h.2).imp_right fun h' => ?_
      refine ⟨hst.globalReaders k p h.1, ?_⟩
      rwa [hsame]
    · exact .inl (hwake p (mem_append.2 (.inr h.1)))
  | stateAt q next ih =>
    have hnext := ih _ (hx.2 _ fun b => hst.source.states q b) h.2
    rcases hst.statesWake q with hsame | ⟨hnone, b, hb, hr⟩ | hwake
    · refine hnext.imp_right fun h' => ⟨hst.stateReaders q p h.1, ?_⟩
      rwa [hsame]
    · refine hnext.imp_right fun h' => ⟨hst.stateReaders q p h.1, ?_⟩
      rw [hb, hx.1 (some b) none ⟨b, hst.flat.states q b hb, hr, rfl, rfl⟩, ← hnone]
      exact h'
    · exact .inl (hwake p (mem_append.2 (.inr h.1)))
  | contribute k v next ih =>
    exact (ih (hx.2 trivial) h.2).imp_right fun h' => ⟨hst.le_globals hx.1 h.1, h'⟩

lemma Settled.result (hs : s.Flat) (hx : x.Meets .flat Q) (h : Settled s p x a) : Q a := by
  induction x with
  | done b => exact h ▸ hx
  | fault f => exact absurd h id
  | lookup k next ih => exact ih _ (hx _ (hs.globals k)) h.2
  | stateAt q next ih => exact ih _ (hx.2 _ fun b => hs.states q b) h.2
  | contribute k v next ih => exact ih (hx.2 trivial) h.2

/-! ## Runs -/

/-- A run is a step of progress, and no state changes while it lasts.  After it its point is woken,
because something it read has changed since, or the step is settled. -/
lemma progress_run (hs : s.Flat) (hx : x.Meets .flat Q) (h : x.run s = .ok a t) :
    Q a ∧ Progress s t ∧ t.states = s.states ∧ t.point = s.point ∧
      (s.point ∈ t.worklist ∨ Settled t s.point x a) := by
  induction x generalizing s with
  | done b =>
    cases h
    exact ⟨hx, .refl hs, rfl, rfl, .inr rfl⟩
  | fault f => cases h
  | lookup k next ih =>
    have hprog := progress_lookup hs k
    obtain ⟨ha, hprog', hstates, hpoint, hset⟩ := ih _ hprog.flat (hx _ (hs.globals k)) h
    refine ⟨ha, hprog.trans hprog', hstates, hpoint, ?_⟩
    have hreader : s.point ∈ (s.lookup k).2.readers.ofGlobal k :=
      mem_ofGlobal_addGlobal.2 (.inr ⟨rfl, rfl⟩)
    rcases hprog'.globalsWake k with hsame | hwake
    · refine hset.imp_right fun h' => ⟨hprog'.globalReaders k _ hreader, ?_⟩
      rwa [hsame]
    · exact .inl (hwake _ (mem_append.2 (.inr hreader)))
  | stateAt q next ih =>
    have hprog := progress_stateOf hs q
    obtain ⟨ha, hprog', hstates, hpoint, hset⟩ := ih _ hprog.flat (hx.2 _ fun b => hs.states q b) h
    refine ⟨ha, hprog.trans hprog', hstates, hpoint, hset.imp_right fun h' => ⟨?_, ?_⟩⟩
    · exact hprog'.stateReaders q _ (mem_ofState_addState.2 (.inr ⟨rfl, rfl⟩))
    · rwa [hstates]
  | contribute k v next ih =>
    obtain ⟨s', hs', h⟩ := Step.run_contribute h
    obtain ⟨hprog, hle, hpoint, hstates⟩ := progress_contribute hs hx.1 hs'
    obtain ⟨ha, hprog', hstates', hpoint', hset⟩ := ih hprog.flat (hx.2 trivial) h
    refine ⟨ha, hprog.trans hprog', hstates'.trans hstates, hpoint'.trans hpoint, ?_⟩
    rw [← hpoint]
    exact hset.imp_right fun h' => ⟨hprog'.le_globals hx.1 hle, h'⟩

/-! ## Raising a state -/

variable {grew changed changed' : Bool} {a : State} {q : Point} {P : Solver → Prop} {fuel : Nat}

lemma grow_cases {old new : State} (h : raise.grow p new s old = .ok (grew, t)) :
    ∃ value stateUpdates,
      (old.join new = .ok value ∨ (do old.widen (← old.join new)) = Except.ok value) ∧
      t = { s with
        states := s.states.insert p value
        stateUpdates
        worklist := s.worklist.insertMany (s.dependents p) } := by
  obtain ⟨joined, hjoined, h⟩ := bind_eq_ok.1 h
  split at h
  · obtain ⟨value, hvalue, h⟩ := bind_eq_ok.1 h
    cases h
    exact ⟨value, _, .inr (bind_eq_ok.2 ⟨joined, hjoined, hvalue⟩), rfl⟩
  · cases h
    exact ⟨joined, _, .inl hjoined, rfl⟩

/-- What raising does: nothing if the new state says nothing new; an unreachable first state is
stored; and otherwise the state grows. -/
lemma raise_cases {new : State} (h : s.raise p new = .ok (grew, t)) :
    (∃ old, s.states.get? p = some old ∧ new.le old = .ok true ∧ t = s) ∨
    (s.states.get? p = none ∧ new.isBottom ∧ t = { s with states := s.states.insert p new }) ∨
    ∃ old value stateUpdates,
      (s.states.get? p = some old ∨ s.states.get? p = none ∧ old = .unreachable) ∧
      (old.join new = .ok value ∨ (do old.widen (← old.join new)) = Except.ok value) ∧
      t = { s with
        states := s.states.insert p value
        stateUpdates
        worklist := s.worklist.insertMany (s.dependents p) } := by
  unfold raise at h
  split at h
  next hnone =>
    split at h
    next hbottom =>
      cases h
      exact .inr (.inl ⟨hnone, hbottom, rfl⟩)
    next => exact .inr (.inr ⟨.unreachable,
      (grow_cases h).imp fun _ h => h.imp fun _ h => ⟨.inr ⟨hnone, rfl⟩, h⟩⟩)
  next old hold =>
    obtain ⟨le, hle, h⟩ := bind_eq_ok.1 h
    cases le with
    | true =>
      cases h
      exact .inl ⟨old, hold, hle, rfl⟩
    | false => exact .inr (.inr ⟨old, (grow_cases h).imp fun _ h => h.imp fun _ h => ⟨.inl hold,
      h⟩⟩)

/-- Storing a flat upper bound of the state of a point is progress, provided that its dependents are
woken or that it is a first, unreachable state. -/
lemma progress_insert {value : State} {stateUpdates : SortedMap Point Nat}
    {worklist : SortedSet Point} (hs : s.Flat) (hvalue : value.Flat)
    (hold : ∀ old, s.states.get? p = some old → old.le value = .ok true)
    (hworklist : ∀ q ∈ s.worklist, q ∈ worklist)
    (hwake : (s.states.get? p = none ∧ value.reachable = false) ∨ ∀ q ∈ s.dependents p,
      q ∈ worklist) :
    Progress s { s with states := s.states.insert p value, stateUpdates, worklist } := by
  have hrefl := Progress.refl hs
  refine ⟨⟨⟨hs, ⟨fun q a ha => ?_, hs.globals⟩, rfl, rfl, hrefl.globals⟩, fun q a ha => ?_⟩,
    hworklist, fun _ _ => id, fun _ _ => id, fun _ => .inl rfl, fun q => ?_⟩
  · dsimp only at ha
    rw [get?_insert] at ha
    split at ha
    · cases ha
      exact hvalue
    · exact hs.states q a ha
  · dsimp only
    rw [get?_insert]
    split
    next hq => exact ⟨value, rfl, hold a (hq ▸ ha)⟩
    next => exact hrefl.states q a ha
  · dsimp only
    rw [get?_insert]
    split
    next hq =>
      subst hq
      rcases hwake with ⟨hnone, hr⟩ | hwake
      · exact .inr (.inl ⟨hnone, value, rfl, hr⟩)
      · exact .inr (.inr hwake)
    next => exact .inl rfl

lemma progress_raise {new : State} (hs : s.Flat) (hnew : new.Flat)
    (h : s.raise p new = .ok (grew, t)) :
    Progress s t ∧ (∃ value, t.states.get? p = some value ∧ new.le value = .ok true) ∧
      ∀ q, q ≠ p → t.states.get? q = s.states.get? q := by
  rcases raise_cases h with ⟨old, hold, hle, rfl⟩ | ⟨hnone, hbottom, rfl⟩ |
    ⟨old, value, _, hold, hvalue, rfl⟩
  · exact ⟨.refl hs, ⟨old, hold, hle⟩, fun _ _ => rfl⟩
  · rw [hnew.isBottom_eq] at hbottom
    exact ⟨progress_insert hs hnew (by simp [hnone]) (fun _ => id)
      (.inl ⟨hnone, by simpa using hbottom⟩),
      ⟨new, get?_insert_self .., le_self hnew⟩, fun q hq => by simp [get?_insert, hq]⟩
  · have hold' : old.Flat := by
      rcases hold with hold | ⟨-, rfl⟩
      exacts [hs.states p old hold, flat_unreachable]
    obtain ⟨hflat, hle, hle'⟩ :=
      hvalue.elim (upperBound_join hold' hnew) (upperBound_widen_join hold' hnew)
    refine ⟨progress_insert hs hflat (fun a ha => ?_) (fun _ hq => mem_insertMany.2 (.inr hq))
      (.inr fun _ hq => mem_insertMany.2 (.inl hq)), ⟨value, get?_insert_self .., hle'⟩,
      fun q hq => by simp [get?_insert, hq]⟩
    rcases hold with hold | ⟨hnone, -⟩
    · cases hold.symm.trans ha
      exact hle
    · cases hnone.symm.trans ha

/-! ## The invariant -/

/-- The equation of `p` gives a state below the stored one. -/
def Stable (s : Solver) (p : Point) : Prop :=
  ∃ a b, Settled s p (evaluate s.graph s.settings p) a ∧ s.states.get? p = some b ∧
    a.le b = .ok true

def Known (s : Solver) (p : Point) : Prop := p ∈ s.worklist ∨ ∃ a, s.states.get? p = some a

/-- The points that a reachable state or a shared entry state leads to are among `known`. -/
structure Closed (s : Solver) (known : Point → Prop) : Prop where
  successors : ∀ p a, s.states.get? p = some a → a.reachable = true →
    ∀ n ∈ s.graph.successors p.node, known ⟨n, p.context⟩
  entries : ∀ k, s.globals.value k ≠ .bottom → ∀ p, s.entryPoint? k = some p → known p

/-- A solver of a scalar program without relations. -/
structure Plain (s : Solver) : Prop where
  graph : s.graph.Scalar
  settings : s.settings.relation = .none
  flat : s.Flat

/-- What a solver of a scalar program keeps up while it ascends. -/
structure Consistent (s : Solver) : Prop extends Plain s where
  stable : ∀ p a, s.states.get? p = some a → p ∈ s.worklist ∨ s.Stable p
  closed : s.Closed s.Known

lemma Plain.evaluate (h : s.Plain) (p : Point) :
    (evaluate s.graph s.settings p).Meets .flat State.Flat :=
  flat_evaluate h.graph h.settings p

lemma Plain.extend (h : s.Plain) (hst : Extends s t) : t.Plain :=
  ⟨hst.graph ▸ h.graph, hst.settings ▸ h.settings, hst.flat⟩

lemma Stable.progress (hs : s.Plain) (hst : Progress s t) (h : s.Stable p) :
    p ∈ t.worklist ∨ t.Stable p := by
  obtain ⟨a, b, hset, hb, hab⟩ := h
  obtain ⟨c, hc, hbc⟩ := hst.states p b hb
  refine (hset.progress hst (hs.evaluate p)).imp_right fun hset' => ?_
  rw [← hst.graph, ← hst.settings] at hset'
  refine ⟨a, c, hset', hc, ?_⟩
  exact le_trans (hset.result hs.flat (hs.evaluate p)) (hs.flat.states p b hb)
    (hst.flat.states p c hc) hab hbc

lemma Closed.progress {known known' : Point → Prop} (h : s.Closed known) (hst : Progress s t)
    (hknown : ∀ p, known p → known' p) (hworklist : ∀ p ∈ t.worklist, known' p) :
    t.Closed known' where
  successors p b hb hr n hn := by
    rw [hst.graph] at hn
    rcases hst.statesWake p with hsame | ⟨-, c, hc, hcr⟩ | hwake
    · exact hknown _ (h.successors p b (hsame ▸ hb) hr n hn)
    · rw [hb] at hc
      cases hc
      simp [hr] at hcr
    · exact hworklist _ (hwake _ (mem_append.2 (.inl (mem_map.2 ⟨n, hn, rfl⟩))))
  entries k hk p hp := by
    have hp' : s.entryPoint? k = some p := by
      rw [← hp]
      cases k <;> simp [entryPoint?, hst.graph]
    rcases hst.globalsWake k with hsame | hwake
    · exact hknown _ (h.entries k (hsame ▸ hk) p hp')
    · exact hworklist _ (hwake p (mem_append.2 (.inl (by simp [hp']))))

lemma next?_eq {s' : Solver} (h : s.next? = some (p, s')) :
    p ∈ s.worklist ∧ s' = { s with worklist := s.worklist.erase p } := by
  unfold next? at h
  split at h
  · cases h
  next heq =>
    cases h
    exact ⟨mem_toList.1 (heq ▸ mem_cons_self), rfl⟩

lemma next?_eq_none (h : s.next? = none) : ∀ p, p ∉ s.worklist := by
  unfold next? at h
  split at h
  next heq => exact fun p hp => not_mem_nil (heq ▸ mem_toList.2 hp)
  next => cases h

lemma evaluatePoint_eq (h : s.evaluatePoint p = .ok (a, t)) :
    (evaluate s.graph s.settings p).run { s with point := p, evaluations := s.evaluations + 1 } =
      .ok a t := by
  unfold evaluatePoint at h
  split at h
  · cases h
  · split at h
    next heq =>
      cases h
      exact heq
    next => cases h

lemma node_lt_of_run {σ : Type} [SharedStore σ] {g : Graph} {settings : Settings} {r r' : σ}
    (h : (evaluate g settings p).run r = .ok a r') : p.node < g.nodes.size := by
  by_contra hlt
  have hnone : g.nodes[p.node]? = none := by simpa using hlt
  unfold evaluate Graph.functionOf Graph.node at h
  rw [hnone] at h
  cases h

/-- The solver in which a point was taken off the worklist. -/
def taking (s : Solver) (p : Point) : Solver := { s with worklist := s.worklist.erase p }

/-- What one round of the ascent does: `p` was taken off the worklist, its equation gave `a`, and
its state was raised by `a`. -/
structure Round (s : Solver) (p : Point) (a : State) (t : Solver) : Prop where
  inRange : p.node < s.graph.nodes.size
  progress : Progress (s.taking p) t
  /-- Something that the evaluation had read has changed since, or the equation still gives `a`. -/
  settled : p ∈ t.worklist ∨ Settled t p (evaluate s.graph s.settings p) a
  bounded : ∃ b, t.states.get? p = some b ∧ a.le b = .ok true
  others : ∀ q, q ≠ p → t.states.get? q = s.states.get? q

lemma Plain.taking (h : s.Plain) (p : Point) : (s.taking p).Plain :=
  ⟨h.graph, h.settings, ⟨h.flat.states, h.flat.globals⟩⟩

/-- Evaluating a point is a step of progress.  After it the point is woken or settled. -/
lemma Plain.evaluatePoint (hs : s.Plain) (h : s.evaluatePoint p = .ok (a, t)) :
    a.Flat ∧ Progress s t ∧ t.states = s.states ∧
      (p ∈ t.worklist ∨ Settled t p (StaticAnalysis.evaluate s.graph s.settings p) a) := by
  have hstart : Progress s { s with point := p, evaluations := s.evaluations + 1 } :=
    .of_same hs.flat (fun _ => id) (fun _ _ => id) fun _ _ => id
  obtain ⟨ha, hprog, hstates, -, hset⟩ := progress_run hstart.flat (hs.evaluate p)
    (evaluatePoint_eq h)
  exact ⟨ha, hstart.trans hprog, hstates, hset⟩

lemma round_of_ok {s₁ s₂ s₃ : Solver} (hs : s.Plain) (hnext : s.next? = some (p, s₁))
    (heval : s₁.evaluatePoint p = .ok (a, s₂)) (hraise : s₂.raise p a = .ok (grew, s₃)) :
    Round s p a s₃ := by
  obtain ⟨-, rfl⟩ := next?_eq hnext
  obtain ⟨ha, hprog₂, hstates₂, hset⟩ := (hs.taking p).evaluatePoint heval
  obtain ⟨hprog₃, hbounded, hothers⟩ := progress_raise hprog₂.flat ha hraise
  have hlt : p.node < s.graph.nodes.size :=
    node_lt_of_run (evaluatePoint_eq (s := s.taking p) heval)
  refine ⟨hlt, hprog₂.trans hprog₃, ?_, hbounded, fun q hq => ?_⟩
  · rcases hset with hset | hset
    · exact .inl (hprog₃.worklist p hset)
    · exact hset.progress hprog₃ (hs.evaluate p)
  · rw [hothers q hq, hstates₂]
    rfl

variable {b : State}

lemma Round.grows (h : Round s p b t) : Grows s t :=
  have ⟨⟨hs, ht, hgraph, hsettings, hglobals⟩, hstates⟩ := h.progress.toGrows
  ⟨⟨⟨hs.states, hs.globals⟩, ht, hgraph, hsettings, hglobals⟩, hstates⟩

lemma Round.worklist (h : Round s p b t) (hq : q ∈ s.worklist) (hne : q ≠ p) : q ∈ t.worklist :=
  h.progress.worklist q (mem_erase.2 ⟨hq, hne⟩)

lemma Round.known (h : Round s p b t) (hq : s.Known q) : t.Known q := by
  rcases hq with hq | ⟨c, hc⟩
  · by_cases hqp : q = p
    · obtain ⟨d, hd, -⟩ := h.bounded
      exact .inr ⟨d, hqp ▸ hd⟩
    · exact .inl (h.worklist hq hqp)
  · obtain ⟨d, hd, -⟩ := h.grows.states q c hc
    exact .inr ⟨d, hd⟩

lemma Consistent.round (h : s.Consistent) (hround : Round s p b t) : t.Consistent := by
  have hgrows := hround.grows
  refine ⟨h.extend hgrows.toExtends, fun q c hc => ?_, ?_⟩
  · by_cases hq : q = p
    · subst hq
      obtain ⟨d, hd, hle⟩ := hround.bounded
      refine hround.settled.imp_right fun hset => ⟨b, d, ?_, hd, hle⟩
      rwa [hgrows.graph, hgrows.settings]
    · rw [hround.others q hq] at hc
      rcases h.stable q c hc with hmem | ⟨d, e, hset, he, hde⟩
      · exact .inl (hround.worklist hmem hq)
      · refine Stable.progress (h.taking p) hround.progress ?_
        exact ⟨d, e, Settled.of_same (s := s) rfl rfl rfl hset, he, hde⟩
  · have hclosed : (s.taking p).Closed s.Known := ⟨h.closed.successors, h.closed.entries⟩
    exact hclosed.progress hround.progress (fun q => hround.known) fun q hq => .inl hq

lemma ascendWith_rounds (hround : ∀ s p s₁ r u grew t, s.next? = some (p, s₁) → P s →
      s₁.evaluatePoint p = .ok (r, u) → u.raise p r = .ok (grew, t) → P t) (hs : P s)
    (h : ascendWith fuel changed s = .ok (changed', t)) : P t ∧ ∀ p, p ∉ t.worklist := by
  induction fuel generalizing s changed with
  | zero =>
    unfold Solver.ascendWith at h
    split at h
    next hnext =>
      cases h
      exact ⟨hs, next?_eq_none hnext⟩
    next => cases h
  | succ fuel ih =>
    unfold Solver.ascendWith at h
    split at h
    next hnext =>
      cases h
      exact ⟨hs, next?_eq_none hnext⟩
    next p s₁ hnext =>
      obtain ⟨⟨r, u⟩, heval, h⟩ := bind_eq_ok.1 h
      obtain ⟨⟨grew, v⟩, hraise, h⟩ := bind_eq_ok.1 h
      exact ih (hround s p s₁ r u grew v hnext hs heval (ofFault_eq_ok.1 hraise)) h

/-- What every round of the ascent keeps up holds at its end, and the ascent only grows states. -/
lemma ascendWith_induct (hs : s.Plain) (hround : ∀ s p a t, P s → Round s p a t → P t) (h : P s)
    (ht : ascendWith fuel changed s = .ok (changed', t)) :
    P t ∧ Grows s t ∧ ∀ p, p ∉ t.worklist := by
  refine and_assoc.1 (ascendWith_rounds (P := fun u => P u ∧ Grows s u)
    (fun u p u₁ r v grew w hnext hu heval hraise => ?_) ⟨h, (Progress.refl hs.flat).toGrows⟩ ht)
  have hr := round_of_ok (hs.extend hu.2.toExtends) hnext heval hraise
  exact ⟨hround u p r w hu.1 hr, hu.2.trans hr.grows⟩

lemma Consistent.ascend (h : s.Consistent) (ht : s.ascend = .ok (changed, t)) :
    t.Consistent ∧ Grows s t ∧ ∀ p, p ∉ t.worklist :=
  ascendWith_induct h.toPlain (fun _ _ _ _ h => h.round) h ht

/-! ## Seeds -/

lemma consistent_new {graph : Graph} {settings : Settings} (hgraph : graph.Scalar)
    (hsettings : settings.relation = .none) : (new graph settings).Consistent where
  graph := hgraph
  settings := hsettings
  flat := ⟨fun p a h => by simp [new] at h, fun k => .bottom _⟩
  stable p a h := by simp [new] at h
  closed := ⟨fun p a h => by simp [new] at h, fun k hk => absurd rfl hk⟩

variable {g : Graph} {settings : Settings} {l : List (String × Context × State)}

lemma seeds_cases (h : seeds g settings = .ok l) {e : String × Context × State} (he : e ∈ l) :
    State.initial g settings = .ok e.2.2 ∨ ∃ f, State.modularEntry g settings f = .ok e.2.2 := by
  obtain ⟨roots, hroots, h⟩ := bind_eq_ok.1 h
  obtain ⟨modular, hmodular, h⟩ := bind_eq_ok.1 h
  cases h
  rcases mem_append.1 he with he | he
  · obtain ⟨f, -, hf⟩ := mem_of_mapM hroots he
    obtain ⟨a, ha, hf⟩ := bind_eq_ok.1 hf
    cases hf
    exact .inl ha
  · obtain ⟨f, -, hf⟩ := mem_of_mapM hmodular he
    obtain ⟨a, ha, hf⟩ := bind_eq_ok.1 hf
    cases hf
    exact .inr ⟨f, ha⟩

lemma flat_seeds (hgraph : g.Scalar) (hsettings : settings.relation = .none)
    (h : seeds g settings = .ok l) : ∀ e ∈ l, e.2.2.Flat := fun _ he =>
  (seeds_cases h he).elim (flat_initial hgraph hsettings) fun ⟨_, ha⟩ =>
    flat_modularEntry hsettings ha

/-- The entry of a seed is known, and the shared entry state bounds the seed. -/
def Rooted (s : Solver) (seed : String × Context × State) : Prop :=
  ∀ f, s.graph.function? seed.1 = some f → s.Known ⟨f.entry, seed.2.1⟩ ∧
    (GlobalValue.state seed.2.2).le (s.globals.value (.entry seed.1 seed.2.1)) = .ok true

lemma Rooted.mono {seed : String × Context × State} (h : s.Rooted seed) (hseed : seed.2.2.Flat)
    (hst : Extends s t) (hknown : ∀ p, s.Known p → t.Known p) : t.Rooted seed := by
  intro f hf
  obtain ⟨hp, hle⟩ := h f (hst.graph ▸ hf)
  exact ⟨hknown _ hp, hst.le_globals (fits_state hseed) hle⟩

/-- Seeding is a step of progress that changes no state, and all seeds are known after it. -/
lemma rooted_seed (hs : s.Flat) (hl : seeds s.graph s.settings = .ok l)
    (hflat : ∀ e ∈ l, e.2.2.Flat) (ht : s.seed = .ok t) :
    (Progress s t ∧ t.states = s.states) ∧ ∀ e ∈ l, t.Rooted e := by
  obtain ⟨l', hl', ht⟩ := bind_eq_ok.1 ht
  cases hl.symm.trans hl'
  refine foldlM_visit (P := fun t => Progress s t ∧ t.states = s.states)
    (R := fun e t => t.Rooted e) (fun u e v he hu hv => ?_) ⟨.refl hs, rfl⟩ ht
  obtain ⟨hprog, hstates⟩ := hu
  obtain ⟨name, context, a⟩ := e
  dsimp only at hv
  split at hv
  next hnone =>
    cases hv
    exact ⟨⟨hprog, hstates⟩, fun f hf => by simp [hnone] at hf, fun _ _ => id⟩
  next f hf =>
    obtain ⟨w, hw, hv⟩ := bind_eq_ok.1 hv
    cases hv
    have hpoint : Progress u { u with point := ⟨f.entry, context⟩ } :=
      .of_same hprog.flat (fun _ => id) (fun _ _ => id) fun _ _ => id
    obtain ⟨hwprog, hle, -, hwstates⟩ := progress_contribute hpoint.flat
      (fits_state (hflat _ he)) hw
    have huv := (hpoint.trans hwprog).trans (progress_enqueue hwprog.flat [⟨f.entry, context⟩])
    refine ⟨⟨hprog.trans huv, hwstates.trans hstates⟩, fun f' hf' => ?_, fun e' he' h => ?_⟩
    · cases hf.symm.trans ((congrArg (Graph.function? · name) huv.graph).symm.trans hf')
      exact ⟨.inl (mem_enqueue.2 (.inl mem_cons_self)), hle⟩
    · refine h.mono (hflat _ he') huv.toExtends fun p hp => ?_
      exact hp.imp (huv.worklist p) fun ⟨b, hb⟩ =>
        ⟨b, by rw [← hb]; exact congrArg (get? · p) hwstates⟩

lemma Consistent.progress (h : s.Consistent) (hst : Progress s t) (hstates : t.states = s.states) :
    t.Consistent where
  toPlain := h.extend hst.toExtends
  stable p a ha := by
    rcases h.stable p a (hstates ▸ ha) with hmem | hstable
    · exact .inl (hst.worklist p hmem)
    · exact hstable.progress h.toPlain hst
  closed := h.closed.progress hst
    (fun p hp => hp.imp (hst.worklist p) fun ⟨a, ha⟩ => ⟨a, hstates ▸ ha⟩) fun p hp => .inl hp

/-- Seeding keeps the invariant up, and is a step of progress that changes no state. -/
lemma Consistent.seed (h : s.Consistent) (ht : s.seed = .ok t) : t.Consistent ∧ Progress s t := by
  obtain ⟨l, hl, -⟩ := bind_eq_ok.1 ht
  obtain ⟨⟨hprog, hstates⟩, -⟩ := rooted_seed h.flat hl (flat_seeds h.graph h.settings hl) ht
  exact ⟨h.progress hprog hstates, hprog⟩

/-! ## Solving -/

/-- The stages of a solver run: seed and ascend; descend if something changed and rounds are left;
ascend again if that left points on the worklist. -/
lemma solve_cases {sol : Solution} (h : s.solve = .ok sol) :
    ∃ s₁ changed s₂, s.seed = .ok s₁ ∧ s₁.ascend = .ok (changed, s₂) ∧
      (((changed = false ∨ s₂.settings.narrowingRounds = 0) ∧ sol = s₂.solution) ∨
        s₂.settings.narrowingRounds ≠ 0 ∧
        ∃ s₃, descend s₂.settings.narrowingRounds { s₂ with worklist := .empty } = .ok s₃ ∧
          ((s₃.worklist.isEmpty ∧ sol = s₃.solution) ∨
            ∃ changed s₄, s₃.ascend = .ok (changed, s₄) ∧ sol = s₄.solution)) := by
  obtain ⟨s₁, hseed, h⟩ := bind_eq_ok.1 h
  obtain ⟨⟨changed, s₂⟩, hascend, h⟩ := bind_eq_ok.1 h
  refine ⟨s₁, changed, s₂, ofFault_eq_ok.1 hseed, hascend, ?_⟩
  dsimp only at h
  split at h
  next hdone =>
    cases h
    exact .inl ⟨by simpa using hdone, rfl⟩
  next hdone =>
    simp only [Bool.or_eq_true, not_or, decide_eq_true_eq] at hdone
    obtain ⟨s₃, hdescend, h⟩ := bind_eq_ok.1 h
    refine .inr ⟨hdone.2, s₃, hdescend, ?_⟩
    split at h
    next hempty =>
      cases h
      exact .inl ⟨hempty, rfl⟩
    next =>
      obtain ⟨⟨changed', s₄⟩, hascend', h⟩ := bind_eq_ok.1 h
      cases h
      exact .inr ⟨changed', s₄, hascend', rfl⟩

lemma consistent_of_solve {sol : Solution} (hscalar : g.isScalar)
    (hrelation : settings.relation = .none) (hrounds : settings.narrowingRounds = 0)
    (h : (new g settings).solve = .ok sol) :
    ∃ s : Solver, s.Consistent ∧ (∀ p, p ∉ s.worklist) ∧ s.graph = g ∧ s.settings = settings ∧
      sol = s.solution := by
  obtain ⟨s, changed, t, hseed, hascend, h⟩ := solve_cases h
  obtain ⟨hs, hprog⟩ := (consistent_new (Graph.scalar_of_isScalar hscalar) hrelation).seed hseed
  obtain ⟨ht, hgrows, hempty⟩ := hs.ascend hascend
  have hsettings : t.settings = settings := hgrows.settings.trans hprog.settings
  rcases h with ⟨-, rfl⟩ | ⟨hne, -⟩
  · exact ⟨t, ht, hempty, hgrows.graph.trans hprog.graph, hsettings, rfl⟩
  · exact absurd (hsettings ▸ hrounds) hne

end Solver
end StaticAnalysis
