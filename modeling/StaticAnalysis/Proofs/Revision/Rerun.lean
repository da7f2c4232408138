import StaticAnalysis.Proofs.Program.Lowering
import StaticAnalysis.Proofs.Solver.Stability
import StaticAnalysis.Revision.Resume

/-!
# Solving an unchanged program again

A run that takes over the solution of the same program changes nothing.  The new run only evaluates
the entries of the functions that are entered from outside.  Nothing leads to such an entry but the
shared entry state, and the solver keeps the state of an entry above the shared one: the entry is
woken when the shared state grows, and narrowing keeps a state that bounds the new one above it.
-/

namespace StaticAnalysis

open Fault List SortedMap State StaticAnalysis.Graph

namespace Graph

def IsEntry (g : Graph) (n : Nat) : Prop := ∃ name f, g.function? name = some f ∧ f.entry = n

variable {g : Graph} {n : Nat}

lemma EntriesApart.edgesInto_eq (h : g.EntriesApart) (hn : g.IsEntry n) : g.edgesInto n = [] := by
  obtain ⟨name, f, hf, rfl⟩ := hn
  refine eq_nil_iff_forall_not_mem.2 fun ie hie => ?_
  exact h.dst_ne name f hf ie.2 (by simpa using mem_edges_of_edgesInto hie)
    (getElem?_of_edgesInto hie).2

lemma EntriesApart.exists_node (h : g.EntriesApart) (hn : g.IsEntry n) :
    ∃ node, g.nodes[n]? = some node := by
  obtain ⟨name, f, hf, rfl⟩ := hn
  exact ⟨_, Array.getElem?_eq_getElem (h.entry_lt name f hf)⟩

lemma functionOf_eq {node : Node} (h : g.nodes[n]? = some node) :
    g.functionOf n = .ok node.function := by
  simp [functionOf, Graph.node, h]

lemma EntriesApart.evaluate_eq (h : g.EntriesApart) {settings : Settings} {p : Point}
    (hp : g.IsEntry p.node) {node : Node} (hnode : g.nodes[p.node]? = some node) :
    evaluate g settings p = entryState g node.function p := by
  have hexit : (g.function? node.function).any (·.exit == p.node) = false := by
    obtain ⟨name, f, hf, hentry⟩ := hp
    cases hf' : g.function? node.function with
    | none => rfl
    | some f' => simpa [hentry] using h.exit_ne name f hf node.function f' hf'
  unfold evaluate
  rw [functionOf_eq hnode, h.edgesInto_eq hp]
  change (entryState g node.function p >>= fun s =>
    if p.context.isModular && (g.function? node.function).any (·.exit == p.node) && !s.isBottom
    then _ else pure s) = _
  simp only [hexit, Bool.and_false, Bool.false_and, Bool.false_eq_true, if_false]
  exact bind_pure _

end Graph

namespace Solver

variable {s t : Solver} {p : Point}

/-- The state in which the store says that a point is entered. -/
def enteredWith (s : Solver) (p : Point) : State :=
  match s.graph.nodes[p.node]? with
  | some node =>
    if (s.graph.function? node.function).any (·.entry == p.node) then
      match s.globals.value (.entry node.function p.context) with
      | .state a => a
      | _ => .unreachable
    else .unreachable
  | none => .unreachable

variable {a b old : State} {g : Graph} {settings : Settings}

lemma settled_entryState {node : Node} (hnode : s.graph.nodes[p.node]? = some node)
    (h : Settled s p (entryState s.graph node.function p) a) : a = s.enteredWith p := by
  unfold enteredWith
  rw [hnode]
  unfold entryState at h
  dsimp only
  split at h
  next hentry =>
    rw [if_pos hentry]
    obtain ⟨-, h⟩ := h
    generalize s.globals.value (.entry node.function p.context) = v at h ⊢
    cases v <;> exact h.symm
  next hentry =>
    rw [if_neg hentry]
    exact h.symm

lemma Progress.enteredWith (h : Progress s t) (p : Point) :
    t.enteredWith p = s.enteredWith p ∨ p ∈ t.worklist := by
  unfold Solver.enteredWith
  rw [h.graph]
  split
  next node hnode =>
    split
    next hentry =>
      rcases h.globalsWake (.entry node.function p.context) with hsame | hwake
      · rw [hsame]
        exact .inl rfl
      · refine .inr (hwake p (mem_append.2 (.inl ?_)))
        cases hf : s.graph.function? node.function with
        | none => simp [hf] at hentry
        | some f =>
          have : f.entry = p.node := by simpa [hf] using hentry
          simp [entryPoint?, hf, this]
    next => exact .inl rfl
  next => exact .inl rfl

/-! ## The state of an entry -/

/-- What a solver keeps up about the entries of functions, in the ascent and in the descent. -/
structure Reentrant (s : Solver) : Prop extends Plain s where
  apart : s.graph.EntriesApart
  inRange : ∀ p a, s.states.get? p = some a → p.node < s.graph.nodes.size
  entered : ∀ p b, s.graph.IsEntry p.node → s.states.get? p = some b →
    p ∈ s.worklist ∨ (s.enteredWith p).le b = .ok true

lemma settled_entry (hapart : s.graph.EntriesApart) (hp : s.graph.IsEntry p.node)
    (h : Settled s p (evaluate s.graph s.settings p) a) : a = s.enteredWith p := by
  obtain ⟨node, hnode⟩ := hapart.exists_node hp
  rw [hapart.evaluate_eq hp hnode] at h
  exact settled_entryState hnode h

lemma flat_enteredWith (h : s.Flat) (p : Point) : (s.enteredWith p).Flat := by
  unfold enteredWith
  split
  next node _ =>
    have hfits := (h.globals (.entry node.function p.context)).flat
    split
    · split
      next heq =>
        rw [heq] at hfits
        exact hfits
      next => exact flat_unreachable
    · exact flat_unreachable
  next => exact flat_unreachable

lemma Progress.entered (hst : Progress s t) {c : State}
    (hb : s.states.get? p = some b) (hle : (s.enteredWith p).le b = .ok true)
    (hc : t.states.get? p = some c) : p ∈ t.worklist ∨ (t.enteredWith p).le c = .ok true := by
  rcases hst.enteredWith p with hsame | hwake
  · obtain ⟨d, hd, hbd⟩ := hst.states p b hb
    cases hd.symm.trans hc
    rw [hsame]
    exact .inr (State.le_trans (flat_enteredWith hst.source p) (hst.source.states p b hb)
      (hst.flat.states p _ hd) hle hbd)
  · exact .inl hwake

lemma Reentrant.round (h : s.Reentrant) (hround : Round s p a t) : t.Reentrant := by
  have hgrows := hround.grows
  refine ⟨h.extend hgrows.toExtends, hgrows.graph ▸ h.apart, fun q b hb => ?_, fun q b hq hb => ?_⟩
  · rw [hgrows.graph]
    by_cases hqp : q = p
    · exact hqp ▸ hround.inRange
    · exact h.inRange q b (hround.others q hqp ▸ hb)
  · rw [hgrows.graph] at hq
    by_cases hqp : q = p
    · subst hqp
      refine hround.settled.imp_right fun hset => ?_
      rw [← hgrows.graph, ← hgrows.settings] at hset
      obtain ⟨c, hc, hle⟩ := hround.bounded
      cases hb.symm.trans hc
      rwa [settled_entry (hgrows.graph ▸ h.apart) (hgrows.graph ▸ hq) hset] at hle
    · have hb' := hround.others q hqp ▸ hb
      rcases h.entered q b hq hb' with hmem | hle
      · exact .inl (hround.worklist hmem hqp)
      · exact hround.progress.entered hb' hle hb

lemma Reentrant.progress (h : s.Reentrant) (hst : Progress s t) (hstates : t.states = s.states) :
    t.Reentrant where
  toPlain := h.extend hst.toExtends
  apart := hst.graph ▸ h.apart
  inRange p a ha := by
    rw [hst.graph]
    exact h.inRange p a (hstates ▸ ha)
  entered p b hp hb := by
    have hb' := hstates ▸ hb
    rcases h.entered p b (hst.graph ▸ hp) hb' with hmem | hle
    · exact .inl (hst.worklist p hmem)
    · exact hst.entered hb' hle hb

/-! ## Descending rounds -/

lemma lower_cases (h : s.lower p = .ok t) : ∃ new s' value, s.evaluatePoint p = .ok (new, s') ∧
    ((s'.states.getD p .unreachable).narrow new = .ok value ∨ value = new) ∧
    t = { s' with states := s'.states.insert p value } := by
  obtain ⟨⟨new, s'⟩, heval, h⟩ := bind_eq_ok.1 h
  refine ⟨new, s', ?_⟩
  dsimp only at h
  split at h
  · obtain ⟨value, hvalue, h⟩ := bind_eq_ok.1 h
    cases h
    exact ⟨value, heval, .inl (AnalysisError.ofFault_eq_ok.1 hvalue), rfl⟩
  · cases h
    exact ⟨new, heval, .inr rfl, rfl⟩

/-- Nothing is forgotten: points keep a state, though maybe a smaller one, and shared values only
grow. -/
structure Keeps (s t : Solver) : Prop extends Extends s t where
  states : ∀ p a, s.states.get? p = some a → ∃ b, t.states.get? p = some b

lemma Keeps.refl (h : s.Flat) : Keeps s s := ⟨(Progress.refl h).toExtends, fun _ a ha => ⟨a, ha⟩⟩

lemma Keeps.trans {u : Solver} (hst : Keeps s t) (htu : Keeps t u) : Keeps s u :=
  ⟨hst.toExtends.trans htu.toExtends, fun p a ha => (hst.states p a ha).elim (htu.states p)⟩

lemma Reentrant.insert (h : s.Reentrant) {value : State} (hvalue : value.Flat)
    (hp : p.node < s.graph.nodes.size)
    (hentered : s.graph.IsEntry p.node → p ∈ s.worklist ∨ (s.enteredWith p).le value = .ok true) :
    Reentrant { s with states := s.states.insert p value } := by
  refine ⟨⟨h.graph, h.settings, ⟨fun q b hb => ?_, h.flat.globals⟩⟩, h.apart, fun q b hb => ?_,
    fun q b hq hb => ?_⟩
  all_goals
    dsimp only at hb
    rw [get?_insert] at hb
    split at hb
  · cases hb
    exact hvalue
  · exact h.flat.states q b hb
  next hqp => exact hqp ▸ hp
  next => exact h.inRange q b hb
  next hqp =>
    subst hqp
    cases hb
    exact hentered hq
  next => exact h.entered q b hq hb

/-- Recomputing the state of a point keeps entries up: the new state of an entry is the shared one,
and narrowing a bound of it leaves a bound. -/
lemma Reentrant.lower (h : s.Reentrant) (hold : s.states.get? p = some old)
    (ht : s.lower p = .ok t) : t.Reentrant ∧ Keeps s t := by
  obtain ⟨new, s', value, heval, hvalue, rfl⟩ := lower_cases ht
  obtain ⟨hnew, hprog, hstates, hset⟩ := h.evaluatePoint heval
  have hs' := h.progress hprog hstates
  have hold' : s'.states.get? p = some old := hstates ▸ hold
  have hvalue' : value.Flat ∧ (new.le old = .ok true → new.le value = .ok true) := by
    rw [getD_eq, hold', Option.getD_some] at hvalue
    rcases hvalue with hvalue | rfl
    · exact narrow_spec (h.flat.states p old hold) hnew hvalue
    · exact ⟨hnew, fun _ => le_self hnew⟩
  have ht' := hs'.insert hvalue'.1 (hs'.inRange p old hold') fun hp => by
    rcases hset with hwake | hset
    · exact .inl hwake
    · have hnew' : new = s'.enteredWith p := by
        refine settled_entry hs'.apart hp ?_
        rw [hprog.graph, hprog.settings]
        exact hset
      refine (hs'.entered p old hp hold').imp_right fun hle => ?_
      rw [← hnew'] at hle ⊢
      exact hvalue'.2 hle
  refine ⟨ht', ⟨h.flat, ht'.flat, hprog.graph, hprog.settings, hprog.globals⟩, fun q b hb => ?_⟩
  dsimp only
  rw [get?_insert, hstates]
  split
  exacts [⟨_, rfl⟩, ⟨b, hb⟩]

lemma Reentrant.lowerAll (h : s.Reentrant) (ht : s.lowerAll = .ok t) : t.Reentrant ∧ Keeps s t := by
  unfold Solver.lowerAll at ht
  refine foldlM_induct (fun u p v hp hu hv => ?_) ⟨h, .refl h.flat⟩ ht
  obtain ⟨a, ha⟩ := SortedMap.mem_keys.1 hp
  obtain ⟨b, hb⟩ := hu.2.states p a ha
  obtain ⟨hv', hkeeps⟩ := hu.1.lower hb hv
  exact ⟨hv', hu.2.trans hkeeps⟩

lemma Reentrant.descend {rounds : Nat} (h : s.Reentrant) (ht : descend rounds s = .ok t) :
    t.Reentrant ∧ Keeps s t := by
  induction rounds generalizing s with
  | zero =>
    cases ht
    exact ⟨h, .refl h.flat⟩
  | succ rounds ih =>
    obtain ⟨u, hu, ht⟩ := bind_eq_ok.1 ht
    obtain ⟨hu', hkeeps⟩ := h.lowerAll hu
    obtain ⟨ht', hkeeps'⟩ := ih hu' ht
    exact ⟨ht', hkeeps.trans hkeeps'⟩

/-! ## The solution of the first run -/

variable {l : List (String × Context × State)}

/-- What a finished run leaves about entries: the seeds have states, and the states of entries are
above the shared ones. -/
structure Returned (l : List (String × Context × State)) (s : Solver) :
    Prop extends Reentrant s where
  worklist : ∀ p, p ∉ s.worklist
  rooted : ∀ e ∈ l, s.Rooted e

lemma Returned.le (h : Returned l s) (hp : s.graph.IsEntry p.node) (hb : s.states.get? p = some b) :
    (s.enteredWith p).le b = .ok true :=
  (h.entered p b hp hb).resolve_left (h.worklist p)

lemma returned_ascend {changed : Bool} (hl : ∀ e ∈ l, e.2.2.Flat) (h : s.Reentrant)
    (hrooted : ∀ e ∈ l, s.Rooted e) (ht : s.ascend = .ok (changed, t)) :
    Returned l t ∧ Grows s t := by
  obtain ⟨⟨h', hrooted'⟩, hgrows, hempty⟩ := ascendWith_induct
    (P := fun s => s.Reentrant ∧ ∀ e ∈ l, s.Rooted e) h.toPlain
    (fun s p a t hs hround => ⟨hs.1.round hround, fun e he =>
      (hs.2 e he).mono (hl e he) hround.grows.toExtends fun q => hround.known⟩) ⟨h, hrooted⟩ ht
  exact ⟨⟨h', hempty, hrooted'⟩, hgrows⟩

lemma reentrant_new (hscalar : g.Scalar) (hrelation : settings.relation = .none)
    (hapart : g.EntriesApart) : (new g settings).Reentrant where
  toPlain := (consistent_new hscalar hrelation).toPlain
  apart := hapart
  inRange p a h := by simp [new] at h
  entered p b _ h := by simp [new] at h

/-- A run returns what a solver holds that has taken care of all entries. -/
lemma returned_solve {sol : Solution} (hscalar : g.Scalar) (hrelation : settings.relation = .none)
    (hapart : g.EntriesApart) (h : (new g settings).solve = .ok sol) :
    ∃ l s, seeds g settings = .ok l ∧ Returned l s ∧
      s.graph = g ∧ s.settings = settings ∧ sol = s.solution := by
  obtain ⟨s₁, changed, s₂, hseed, hascend, hlater⟩ := solve_cases h
  obtain ⟨l, hl, -⟩ := bind_eq_ok.1 hseed
  have hlflat := flat_seeds hscalar hrelation hl
  have hnew := reentrant_new hscalar hrelation hapart
  obtain ⟨⟨hprog₁, hstates₁⟩, hrooted₁⟩ := rooted_seed hnew.flat hl hlflat hseed
  obtain ⟨h₂, hgrows₂⟩ := returned_ascend hlflat (hnew.progress hprog₁ hstates₁) hrooted₁ hascend
  obtain rfl : s₂.graph = g := hgrows₂.graph.trans hprog₁.graph
  obtain rfl : s₂.settings = settings := hgrows₂.settings.trans hprog₁.settings
  refine ⟨l, ?_⟩
  rcases hlater with ⟨-, rfl⟩ | ⟨-, s₃, hdescend, hlast⟩
  · exact ⟨s₂, hl, h₂, rfl, rfl, rfl⟩
  have hcleared : Reentrant { s₂ with worklist := .empty } :=
    ⟨⟨h₂.graph, h₂.settings, ⟨h₂.flat.states, h₂.flat.globals⟩⟩, h₂.apart, h₂.inRange,
      fun p b hp hb => .inr (h₂.le hp hb)⟩
  obtain ⟨h₃, hkeeps₃⟩ := hcleared.descend hdescend
  have hrooted₃ : ∀ e ∈ l, s₃.Rooted e := fun e he =>
    (h₂.rooted e he).mono (hlflat e he)
      ⟨h₂.flat, h₃.flat, hkeeps₃.graph, hkeeps₃.settings, hkeeps₃.globals⟩
      fun p hp => .inr (hkeeps₃.states p _ (hp.resolve_left (h₂.worklist p)).choose_spec)
  rcases hlast with ⟨hempty, rfl⟩ | ⟨changed', s₄, hascend', rfl⟩
  · exact ⟨s₃, hl, ⟨h₃, SortedSet.isEmpty_iff.1 hempty, hrooted₃⟩, hkeeps₃.graph, hkeeps₃.settings,
      rfl⟩
  · obtain ⟨h₄, hgrows₄⟩ := returned_ascend hlflat h₃ hrooted₃ hascend'
    exact ⟨s₄, hl, h₄, hgrows₄.graph.trans hkeeps₃.graph, hgrows₄.settings.trans hkeeps₃.settings,
      rfl⟩

/-! ## The second run -/

lemma run_evaluate_entry (hapart : s.graph.EntriesApart) (hp : s.graph.IsEntry p.node) :
    ∃ readers, (evaluate s.graph s.settings p).run s = .ok (s.enteredWith p)
    { s with readers } := by
  obtain ⟨node, hnode⟩ := hapart.exists_node hp
  rw [hapart.evaluate_eq hp hnode]
  unfold entryState enteredWith
  rw [hnode]
  dsimp only
  split
  · refine ⟨s.readers.addGlobal (.entry node.function p.context) s.point, ?_⟩
    change (Step.run (match s.globals.value (.entry node.function p.context) with
      | .state a => Step.done a
      | _ => Step.done State.unreachable) (s.lookup _).2) = _
    cases s.globals.value (.entry node.function p.context) <;> rfl
  · exact ⟨s.readers, rfl⟩

lemma evaluatePoint_entry (hapart : s.graph.EntriesApart) (hp : s.graph.IsEntry p.node) :
    (∃ n, s.evaluatePoint p = .error (.nonTermination n)) ∨ ∃ readers, s.evaluatePoint p =
      .ok (s.enteredWith p, { s with point := p, evaluations := s.evaluations + 1, readers }) := by
  unfold evaluatePoint
  split
  · exact .inl ⟨_, rfl⟩
  · obtain ⟨readers, hrun⟩ := run_evaluate_entry
      (s := { s with point := p, evaluations := s.evaluations + 1 }) hapart hp
    refine .inr ⟨readers, ?_⟩
    dsimp only at hrun
    rw [hrun]
    rfl

lemma raise_of_le {new : State} (hold : s.states.get? p = some old) (hle : new.le old = .ok true) :
    s.raise p new = .ok (false, s) := by
  unfold raise
  rw [hold]
  dsimp only
  rw [hle]
  rfl

/-- Only entries are to be evaluated, and their states are above the shared ones. -/
def Idle (s : Solver) : Prop :=
  ∀ p ∈ s.worklist, s.graph.IsEntry p.node ∧ ∃ b, s.states.get? p = some b ∧
    (s.enteredWith p).le b = .ok true

lemma Idle.ascendWith (hapart : s.graph.EntriesApart) (h : s.Idle) (fuel : Nat) (changed : Bool) :
    (∃ n, ascendWith fuel changed s = .error (.nonTermination n)) ∨
      ∃ t, ascendWith fuel changed s = .ok (changed, t) ∧ t.states = s.states ∧
        t.globals = s.globals := by
  induction fuel generalizing s with
  | zero =>
    unfold Solver.ascendWith
    cases s.next? with
    | none => exact .inr ⟨s, rfl, rfl, rfl⟩
    | some e => exact .inl ⟨_, rfl⟩
  | succ fuel ih =>
    unfold Solver.ascendWith
    cases hnext : s.next? with
    | none => exact .inr ⟨s, rfl, rfl, rfl⟩
    | some e =>
      obtain ⟨p, s₁⟩ := e
      obtain ⟨hmem, rfl⟩ := next?_eq hnext
      obtain ⟨hp, b, hb, hle⟩ := h p hmem
      dsimp only
      rcases evaluatePoint_entry (s := { s with worklist := s.worklist.erase p }) hapart hp with
        ⟨n, heval⟩ | ⟨readers, heval⟩
      · rw [heval]
        exact .inl ⟨n, rfl⟩
      rw [heval, ok_bind]
      dsimp only
      have hraise : raise { s with
          worklist := s.worklist.erase p, point := p, evaluations := s.evaluations + 1, readers } p
          (Solver.enteredWith { s with worklist := s.worklist.erase p } p) = .ok (false, _) :=
        raise_of_le hb hle
      rw [hraise]
      change (∃ n, Solver.ascendWith fuel (changed || false) _ = _) ∨
        ∃ t, Solver.ascendWith fuel (changed || false) _ = _ ∧ _
      rw [Bool.or_false]
      exact ih hapart fun q hq => h q (SortedSet.mem_erase.1 hq).1

lemma contribute_of_le {k : GlobalKey} {v : GlobalValue} (h : v.le (s.globals.value k) = .ok true) :
    s.contribute k v = .ok s := by
  unfold contribute
  dsimp only
  rw [h]
  rfl

/-- Seeding a solver in which the seeds are known already only enqueues their entries. -/
lemma seed_of_rooted (hl : seeds s.graph s.settings = .ok l) (hrooted : ∀ e ∈ l, s.Rooted e) :
    ∃ t, s.seed = .ok t ∧ t.graph = s.graph ∧ t.settings = s.settings ∧ t.states = s.states ∧
      t.globals = s.globals ∧ ∀ p ∈ t.worklist, p ∈ s.worklist ∨
        ∃ e ∈ l, ∃ f, s.graph.function? e.1 = some f ∧ p = ⟨f.entry, e.2.1⟩ := by
  unfold Solver.seed
  rw [hl, ok_bind]
  refine foldlM_total (fun u e he hu => ?_) ⟨rfl, rfl, rfl, rfl, fun p hp => .inl hp⟩
  obtain ⟨hgraph, hsettings, hstates, hglobals, hworklist⟩ := hu
  obtain ⟨name, context, a⟩ := e
  dsimp only
  cases hf : u.graph.function? name with
  | none => exact ⟨u, rfl, hgraph, hsettings, hstates, hglobals, hworklist⟩
  | some f =>
    rw [hgraph] at hf
    have hle := (hrooted _ he f hf).2
    dsimp only at hle ⊢
    rw [← hglobals] at hle
    rw [contribute_of_le (s := { u with point := ⟨f.entry, context⟩ }) hle]
    refine ⟨_, rfl, hgraph, hsettings, hstates, hglobals, fun p hp => ?_⟩
    rcases mem_enqueue.1 hp with hp | hp
    · exact .inr ⟨_, he, f, hf, mem_singleton.1 hp⟩
    · exact hworklist p hp

/-- A solver that takes over all that a finished run leaves either meets the ceiling on evaluations
or ends with just that. -/
lemma Returned.solve (h : Returned l s) (hl : seeds s.graph s.settings = .ok l) :
    (∃ n, (resume s.graph s.settings s.solution .empty).solve = .error (.nonTermination n)) ∨
      ∃ sol, (resume s.graph s.settings s.solution .empty).solve = .ok sol ∧ sol.states = s.states ∧
        sol.globals = s.globals := by
  have hstates : (resume s.graph s.settings s.solution .empty).states = s.states := by
    refine ext_get? fun p => ?_
    change (s.states.filter _).get? p = _
    rw [get?_filter]
    cases hp : s.states.get? p with
    | none => rfl
    | some a =>
      have hempty : (SortedSet.empty : SortedSet Nat).contains p.node = false := rfl
      simp [Option.filter, h.inRange p a hp, hempty]
  have hstored : ∀ e ∈ l, ∀ f, s.graph.function? e.1 = some f →
      ∃ b, s.states.get? ⟨f.entry, e.2.1⟩ = some b :=
    fun e he f hf => (h.rooted e he f hf).1.resolve_left (h.worklist _)
  have hrooted : ∀ e ∈ l, (resume s.graph s.settings s.solution .empty).Rooted e :=
    fun e he f hf => ⟨.inr (hstates ▸ hstored e he f hf), (h.rooted e he f hf).2⟩
  obtain ⟨t, ht, hgraph, hsettings, hstates', hglobals, hworklist⟩ :=
    seed_of_rooted (s := resume s.graph s.settings s.solution .empty) hl hrooted
  have hidle : t.Idle := by
    intro p hp
    obtain ⟨e, he, f, hf, rfl⟩ := (hworklist p hp).resolve_left (SortedSet.not_mem_empty p)
    obtain ⟨b, hb⟩ := hstored e he f hf
    have hentry : s.graph.IsEntry f.entry := ⟨e.1, f, hf, rfl⟩
    refine ⟨hgraph ▸ hentry, b, by rw [hstates', hstates, hb], ?_⟩
    unfold enteredWith
    rw [hgraph, hglobals]
    exact h.le hentry hb
  unfold Solver.solve
  rw [ht]
  change (∃ n, (t.ascend >>= _) = _) ∨ ∃ sol, (t.ascend >>= _) = _ ∧ _
  unfold ascend
  rcases hidle.ascendWith (hgraph ▸ h.apart) (t.settings.maxEvaluations - t.evaluations) false with
    ⟨n, hn⟩ | ⟨u, hu, hstates'', hglobals'⟩
  · rw [hn]
    exact .inl ⟨n, rfl⟩
  · rw [hu]
    exact .inr ⟨u.solution, rfl, hstates''.trans (hstates'.trans hstates), hglobals'.trans hglobals⟩

end Solver

namespace Graph

lemma changedNodes_self (g : Graph) : g.changedNodes g = .empty := by
  have hnodes : (List.range g.nodes.size).filter (nodeChanged g g) = [] := by
    refine filter_eq_nil_iff.2 fun n hn => ?_
    have hlt := mem_range.1 hn
    simp [nodeChanged, hlt]
  have hentries : changedEntries g g = [] := by
    refine filterMap_eq_nil_iff.2 fun e he => ?_
    have : g.function? e.1 = some e.2 := SortedMap.get?_eq_some_iff.2 he
    simp [this]
  unfold changedNodes
  rw [hnodes, hentries]
  simp
  rfl

end Graph

namespace Solver

/-- Solving an unchanged program again, from the solution of a full run, gives the same states and
the same shared values, if the ceiling on evaluations is not met. -/
theorem resolve_unchanged {base g : Graph} {functions : List FunctionDef} {settings : Settings}
    {full : Solution} (hedges : base.edges = #[]) (hfunctions : base.functions = .empty)
    (hbuilt : Graph.ofFunctions base functions = .ok g) (hscalar : g.isScalar = true)
    (hrelation : settings.relation = .none) (hfull : (new g settings).solve = .ok full)
    (hceiling : ∀ n, resolve g settings full (g.changedNodes g) ≠ .error (.nonTermination n)) :
    ∃ again, resolve g settings full (g.changedNodes g) = .ok again ∧ again.states = full.states ∧
      again.globals = full.globals := by
  have hapart := entriesApart_ofFunctions (entriesApart_of_isEmpty hedges hfunctions) hbuilt
  obtain ⟨l, s, hl, hs, rfl, rfl, rfl⟩ := returned_solve
    (scalar_of_isScalar hscalar) hrelation hapart hfull
  rw [changedNodes_self] at hceiling ⊢
  have hresume : resolve s.graph s.settings s.solution .empty =
      (resume s.graph s.settings s.solution .empty).solve := rfl
  rw [hresume] at hceiling ⊢
  exact (hs.solve hl).resolve_left fun ⟨n, hn⟩ => hceiling n hn

/-- A loop that calls a function until what the function returns, a global counted up, is large. -/
def countingCalls : List FunctionDef := [
  ⟨"next", [⟨"step", .int⟩], [], .block [
    .act (.assign (.var "g") (.arith .add (.read (.var "g")) (.read (.var "step")))),
    .ret (some (.read (.var "g")))]⟩,
  ⟨"main", [], [⟨"x", .int⟩], .block [
    .act (.assign (.var "x") (.const 0)),
    .loop (.cmp .lt (.read (.var "x")) (.const 10))
      (.act (.call (some (.var "x")) "next" [.const 2])),
    .check (.cmp .ge (.read (.var "x")) (.const 10))]⟩]

/-- Solving `countingCalls` again after a full run, in which states were widened and narrowed, gives
the same solution. -/
theorem resolve_countingCalls :
    ∃ g full again, Graph.ofFunctions { globals := .ofList [("g", ⟨⟨"g", .int⟩, []⟩)] } countingCalls =
      .ok g ∧ (new g {}).solve = .ok full ∧ resolve g {} full (g.changedNodes g) = .ok again ∧
      again.states = full.states ∧ again.globals = full.globals := by
  obtain ⟨g, hg, hok⟩ := exists_of_any
    (x := Graph.ofFunctions { globals := .ofList [("g", ⟨⟨"g", .int⟩, []⟩)] } countingCalls)
    (p := fun g => g.isScalar && (new g {}).solve.toOption.any fun full =>
      (resolve g {} full .empty).toBool)
    (by decide +kernel)
  rw [Bool.and_eq_true] at hok
  obtain ⟨hscalar, hok⟩ := hok
  obtain ⟨full, hfull, hok⟩ := exists_of_any hok
  have hceiling : ∀ n, resolve g {} full (g.changedNodes g) ≠ .error (.nonTermination n) := by
    intro n hn
    rw [changedNodes_self] at hn
    simp [hn, Except.toBool] at hok
  obtain ⟨again, h⟩ := resolve_unchanged rfl rfl hg hscalar rfl hfull hceiling
  exact ⟨g, full, again, hg, hfull, h⟩

/-- A struct whose fields are arrays, one of them with arrays as elements. -/
def arrayFields : Graph where
  structs := .ofList [("S", [⟨"a", .array .int 4⟩, ⟨"b", .array .int 8⟩,
    ⟨"c", .array (.array .int 4) 2⟩])]
  globals := .ofList [("s", ⟨⟨"s", .struct "S"⟩, []⟩)]

/-- A function that stores the arrays `a` and `b` in `c`, in either order, and calls itself. -/
def storingFields : List FunctionDef := [
  ⟨"main", [], [], .block [
    .act (.assign (.index (.field (.var "s") "a") (.const 3)) (.const 1)),
    .act (.assign (.index (.field (.var "s") "b") (.const 1)) (.const 1)),
    .ite (.cmp .eq .unknown (.const 0))
      (.block [store 0 "a", store 1 "b", .act (.call none "main" [])])
      (.block [
        .act (.assign (.index (.field (.var "s") "a") (.const 3)) (.const 2)),
        store 1 "b", store 0 "a", .act (.call none "main" [])])]⟩]
where
  store (i : Int) (name : String) : Stmt :=
    .act (.assign (.index (.field (.var "s") "c") (.const i)) (.read (.field (.var "s") name)))

def shortDelay : Settings := { narrowingRounds := 0, wideningDelay := 2, context := .insensitive }

/-- The elements of `c` differ in length.  Where they are widened one length is kept, so the first
run ends with states that are not stable, and solving `storingFields` again gives others. -/
theorem resolve_storingFields :
    ∃ g full again, Graph.ofFunctions arrayFields storingFields = .ok g ∧
      (new g shortDelay).solve = .ok full ∧
      resolve g shortDelay full (g.changedNodes g) = .ok again ∧ again.states ≠ full.states := by
  obtain ⟨g, hg, h⟩ := exists_of_any (x := Graph.ofFunctions arrayFields storingFields)
    (p := fun g => (new g shortDelay).solve.toOption.any fun full =>
      (resolve g shortDelay full .empty).toOption.any fun again => again.states ≠ full.states)
    (by decide +kernel)
  obtain ⟨full, hfull, h⟩ := exists_of_any h
  obtain ⟨again, hagain, h⟩ := exists_of_any h
  exact ⟨g, full, again, hg, hfull, g.changedNodes_self ▸ hagain, of_decide_eq_true h⟩

end Solver
end StaticAnalysis
