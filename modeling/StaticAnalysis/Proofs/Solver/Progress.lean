import StaticAnalysis.Proofs.Shared.Steps
import StaticAnalysis.Solver.Iteration

/-!
# Progress of a solver

While a solver ascends, what it stores only grows, and whoever depends on something that grew is
put on the worklist.  `Progress s t` says that `t` came from `s` in this way.  It is a preorder; the
requests of an evaluation and the raising of a state are steps of progress, and hence whole runs
are.
-/

namespace StaticAnalysis

open Fault GlobalValue List SortedMap SortedSet Summary

lemma GlobalValue.le_summary_unknown {v : GlobalValue} (h : GlobalValue.Of .summary v) :
    v.le (.summary .unknown) = .ok true := by
  by_cases hv : v = .bottom
  · subst hv
    rfl
  have hu : GlobalValue.Of .summary (.summary .unknown) :=
    ⟨flat_unknown, by simp [kind?]⟩
  cases h.alike hu hv (by simp) with
  | summary hs ht => exact (le_iff hs ht).2 (.inl rfl)

namespace Solver

variable {s t u : Solver}

/-- Everything a solver stores is flat and fits its key. -/
structure Flat (s : Solver) : Prop where
  states : ∀ p a, s.states.get? p = some a → a.Flat
  globals : ∀ k : GlobalKey, k.Fits (s.globals.value k)

def globalDependents (s : Solver) (k : GlobalKey) : List Point :=
  (s.entryPoint? k).toList ++ s.readers.ofGlobal k

/-- The program stays, and what is shared only grew. -/
structure Extends (s t : Solver) : Prop where
  source : s.Flat
  flat : t.Flat
  graph : t.graph = s.graph
  settings : t.settings = s.settings
  globals : ∀ k, (s.globals.value k).le (t.globals.value k) = .ok true ∧
    (t.globals.value k = .bottom → s.globals.value k = .bottom)

/-- What is stored for a program only grew. -/
structure Grows (s t : Solver) : Prop extends Extends s t where
  states : ∀ p a, s.states.get? p = some a → ∃ b, t.states.get? p = some b ∧ a.le b = .ok true

/-- What is stored only grew, and whoever depends on something that grew is on the worklist. -/
structure Progress (s t : Solver) : Prop extends Grows s t where
  worklist : ∀ p ∈ s.worklist, p ∈ t.worklist
  stateReaders : ∀ q, ∀ p ∈ s.readers.ofState q, p ∈ t.readers.ofState q
  globalReaders : ∀ k, ∀ p ∈ s.readers.ofGlobal k, p ∈ t.readers.ofGlobal k
  globalsWake : ∀ k, t.globals.value k = s.globals.value k ∨
    ∀ p ∈ s.globalDependents k, p ∈ t.worklist
  /-- A state that appears as unreachable wakes nobody. -/
  statesWake : ∀ p, t.states.get? p = s.states.get? p ∨
    (s.states.get? p = none ∧ ∃ b, t.states.get? p = some b ∧ b.reachable = false) ∨
    ∀ q ∈ s.dependents p, q ∈ t.worklist

lemma Extends.le_globals (hst : Extends s t) {k : GlobalKey} {v : GlobalValue} (hv : k.Fits v)
    (hle : v.le (s.globals.value k) = .ok true) : v.le (t.globals.value k) = .ok true :=
  le_trans hv (hst.source.globals k) (hst.flat.globals k) hle (hst.globals k).1 (hst.globals k).2

lemma Extends.trans (hst : Extends s t) (htu : Extends t u) : Extends s u where
  source := hst.source
  flat := htu.flat
  graph := htu.graph.trans hst.graph
  settings := htu.settings.trans hst.settings
  globals k := ⟨htu.le_globals (hst.source.globals k) (hst.globals k).1,
    fun h => (hst.globals k).2 ((htu.globals k).2 h)⟩

lemma Grows.trans (hst : Grows s t) (htu : Grows t u) : Grows s u where
  toExtends := hst.toExtends.trans htu.toExtends
  states p a ha := by
    obtain ⟨b, hb, hab⟩ := hst.states p a ha
    obtain ⟨c, hc, hbc⟩ := htu.states p b hb
    exact ⟨c, hc, State.le_trans (hst.source.states p a ha) (hst.flat.states p b hb)
      (htu.flat.states p c hc) hab hbc⟩

variable {k : GlobalKey} {p q x y : Point} {r : Readers} {v : GlobalValue}

lemma Progress.globalDependents (h : Progress s t) (hp : p ∈ s.globalDependents k) :
    p ∈ t.globalDependents k := by
  rcases mem_append.1 hp with hp | hp
  · refine mem_append.2 (.inl ?_)
    have : t.entryPoint? k = s.entryPoint? k := by
      cases k <;> simp [entryPoint?, h.graph]
    rwa [this]
  · exact mem_append.2 (.inr (h.globalReaders k p hp))

lemma Progress.dependents (h : Progress s t) (hq : q ∈ s.dependents p) : q ∈ t.dependents p := by
  rcases mem_append.1 hq with hq | hq
  · refine mem_append.2 (.inl ?_)
    rwa [h.graph]
  · exact mem_append.2 (.inr (h.stateReaders p q hq))

lemma Progress.trans (hst : Progress s t) (htu : Progress t u) : Progress s u where
  toGrows := hst.toGrows.trans htu.toGrows
  worklist p hp := htu.worklist p (hst.worklist p hp)
  stateReaders q p hp := htu.stateReaders q p (hst.stateReaders q p hp)
  globalReaders k p hp := htu.globalReaders k p (hst.globalReaders k p hp)
  globalsWake k := by
    rcases htu.globalsWake k with htu' | htu'
    · rcases hst.globalsWake k with hst' | hst'
      · exact .inl (htu'.trans hst')
      · exact .inr fun p hp => htu.worklist p (hst' p hp)
    · exact .inr fun p hp => htu' p (hst.globalDependents hp)
  statesWake p := by
    rcases htu.statesWake p with htu' | ⟨hnone, b, hb, hr⟩ | htu'
    · rcases hst.statesWake p with hst' | ⟨hnone, b, hb, hr⟩ | hst'
      · exact .inl (htu'.trans hst')
      · exact .inr (.inl ⟨hnone, b, htu'.trans hb, hr⟩)
      · exact .inr (.inr fun q hq => htu.worklist q (hst' q hq))
    · cases hs' : s.states.get? p with
      | none => exact .inr (.inl ⟨rfl, b, hb, hr⟩)
      | some a =>
        obtain ⟨b, hb, -⟩ := hst.states p a hs'
        rw [hnone] at hb
        cases hb
    · exact .inr (.inr fun q hq => htu' q (hst.dependents hq))

/-! ## Requests -/

lemma mem_enqueue {points : List Point} :
    p ∈ (s.enqueue points).worklist ↔ p ∈ points ∨ p ∈ s.worklist :=
  mem_insertMany

/-- It is progress to note readers and to wake points. -/
lemma Progress.of_same (h : s.Flat) {point : Point} {evaluations : Nat} {worklist : SortedSet Point}
    {readers : Readers} (hworklist : ∀ p ∈ s.worklist, p ∈ worklist)
    (hstateReaders : ∀ q, ∀ p ∈ s.readers.ofState q, p ∈ readers.ofState q)
    (hglobalReaders : ∀ k, ∀ p ∈ s.readers.ofGlobal k, p ∈ readers.ofGlobal k) :
    Progress s { s with point, evaluations, worklist, readers } where
  source := h
  flat := ⟨h.states, h.globals⟩
  graph := rfl
  settings := rfl
  globals k := ⟨le_self (h.globals k), id⟩
  states p a ha := ⟨a, ha, State.le_self (h.states p a ha)⟩
  worklist := hworklist
  stateReaders := hstateReaders
  globalReaders := hglobalReaders
  globalsWake _ := .inl rfl
  statesWake _ := .inl rfl

lemma Progress.refl (h : s.Flat) : Progress s s :=
  .of_same h (fun _ => id) (fun _ _ => id) fun _ _ => id

lemma mem_insert_reader {κ : Type} [Ord κ] [Std.TransOrd κ] [Std.LawfulEqOrd κ] [DecidableEq κ]
    {m : SortedMap κ (SortedSet Point)} {k l : κ} :
    x ∈ ((m.insert k ((m.getD k .empty).insert y)).getD l .empty).toList ↔
      x ∈ (m.getD l .empty).toList ∨ l = k ∧ x = y := by
  simp only [getD_eq, get?_insert]
  by_cases h : l = k
  · subst h
    rw [if_pos rfl, Option.getD_some, mem_toList, mem_insert, mem_toList]
    tauto
  · simp [h]

lemma mem_ofState_addState : x ∈ (r.addState p y).ofState q ↔ x ∈ r.ofState q ∨ q = p ∧ x = y :=
  mem_insert_reader

lemma mem_ofGlobal_addGlobal {l : GlobalKey} :
    x ∈ (r.addGlobal k y).ofGlobal l ↔ x ∈ r.ofGlobal l ∨ l = k ∧ x = y :=
  mem_insert_reader

lemma progress_lookup (h : s.Flat) (k : GlobalKey) : Progress s (s.lookup k).2 :=
  .of_same h (fun _ => id) (fun _ _ => id) fun _ _ hp => mem_ofGlobal_addGlobal.2 (.inl hp)

lemma progress_stateOf (h : s.Flat) (p : Point) : Progress s (s.stateOf p).2 :=
  .of_same h (fun _ => id) (fun _ _ hp => mem_ofState_addState.2 (.inl hp)) fun _ _ => id

lemma progress_enqueue (h : s.Flat) (points : List Point) : Progress s (s.enqueue points) :=
  .of_same h (fun _ hp => mem_enqueue.2 (.inr hp)) (fun _ _ => id) fun _ _ => id

lemma value_insert (m : GlobalMap) (k l : GlobalKey) (v : GlobalValue) :
    GlobalMap.value (m.insert k v) l = if l = k then v else m.value l := by
  unfold GlobalMap.value
  rw [getD_eq, get?_insert]
  split <;> rfl

lemma unroll_spec (s : Solver) (old : GlobalValue) {new : GlobalValue} (h : k.Fits new) :
    ∃ unrolled, (s.unroll k old new).1 = { s with unrolled } ∧
      ((s.unroll k old new).2 = new ∨ (s.unroll k old new).2 = .summary .unknown) ∧
      k.Fits (s.unroll k old new).2 ∧ new.le (s.unroll k old new).2 = .ok true ∧
      ((s.unroll k old new).2 = .bottom → new = .bottom) := by
  have hself := le_self h
  cases k with
  | summary function =>
    unfold unroll
    dsimp only
    split
    · refine ⟨_, rfl, ?_⟩
      dsimp only
      split
      · exact ⟨.inr rfl, ⟨flat_unknown, by simp [kind?, GlobalKey.kind]⟩,
          le_summary_unknown h, by simp⟩
      · exact ⟨.inl rfl, h, hself, id⟩
    · exact ⟨_, rfl, .inl rfl, h, hself, id⟩
  | _ => exact ⟨_, rfl, .inl rfl, h, hself, id⟩

/-- What a contribution does: nothing if it says nothing new, and otherwise it replaces the value of
its key by an upper bound and wakes the dependents. -/
lemma contribute_cases (h : s.Flat) (hv : k.Fits v) (ht : s.contribute k v = .ok t) :
    (v.le (s.globals.value k) = .ok true ∧ t = s) ∨
    ∃ bound new globalUpdates unrolled,
      ((s.globals.value k).widen v = .ok bound ∨ (s.globals.value k).join v = .ok bound) ∧
      (new = bound ∨ new = .summary .unknown) ∧ k.Fits new ∧ (s.globals.value k).le new = .ok true ∧
      v.le new = .ok true ∧ (new = .bottom → s.globals.value k = .bottom) ∧
      t = { s with
        globals := s.globals.insert k new
        globalUpdates
        unrolled
        worklist := s.worklist.insertMany (s.globalDependents k) } := by
  obtain ⟨le, hle, ht⟩ := bind_eq_ok.1 ht
  cases le with
  | true =>
    cases ht
    exact .inl ⟨hle, rfl⟩
  | false =>
    refine .inr ?_
    extract_lets count counted store at ht
    obtain ⟨new, hbound, ht⟩ : ∃ new, ((s.globals.value k).widen v = .ok new ∨
        (s.globals.value k).join v = .ok new) ∧ store new = .ok t := by
      rw [if_neg (by simp)] at ht
      split at ht
      · obtain ⟨new, hnew, ht⟩ := bind_eq_ok.1 ht
        exact ⟨new, .inl hnew, ht⟩
      · obtain ⟨new, hnew, ht⟩ := bind_eq_ok.1 ht
        exact ⟨new, .inr hnew, ht⟩
    obtain ⟨hfits, hold, hnew, hbottom⟩ :=
      hbound.elim (widen_spec (h.globals k) hv) (join_spec (h.globals k) hv)
    obtain ⟨unrolled, hunroll, hsame, hfits', hle', hbottom'⟩ :=
      unroll_spec counted (s.globals.value k) hfits
    dsimp only [store] at ht
    rw [hunroll] at ht
    cases ht
    have htrans := fun x (hx : k.Fits x) (hxn : x.le new = .ok true) =>
      le_trans hx hfits hfits' hxn hle' hbottom'
    exact ⟨new, _, _, unrolled, hbound, hsame, hfits', htrans _ (h.globals k) hold,
      htrans v hv hnew, fun hb => (hbottom (hbottom' hb)).1, rfl⟩

lemma progress_contribute (h : s.Flat) (hv : k.Fits v) (ht : s.contribute k v = .ok t) :
    Progress s t ∧ v.le (t.globals.value k) = .ok true ∧ t.point = s.point ∧
    t.states = s.states := by
  have hrefl := Progress.refl h
  rcases contribute_cases h hv ht with ⟨hle, rfl⟩ |
    ⟨-, new, _, _, -, -, hfits, hold, hnew, hbottom, rfl⟩
  · exact ⟨hrefl, hle, rfl, rfl⟩
  refine ⟨⟨⟨⟨h, ⟨h.states, fun l => ?_⟩, rfl, rfl, fun l => ?_⟩, hrefl.states⟩,
    fun p hp => mem_insertMany.2 (.inr hp), fun _ _ => id, fun _ _ => id, fun l => ?_,
    fun _ => .inl rfl⟩, ?_, rfl, rfl⟩
  all_goals
    dsimp only
    rw [value_insert]
    split
  next hl => rwa [hl]
  next => exact h.globals l
  next hl => exact hl ▸ ⟨hold, hbottom⟩
  next => exact hrefl.globals l
  next hl => exact .inr fun p hp => mem_insertMany.2 (.inl (hl ▸ hp))
  next => exact .inl rfl
  next => exact hnew
  next hk => exact absurd rfl hk

end Solver
end StaticAnalysis
