import StaticAnalysis.Proofs.Transfer.Invariance

/-!
# What other threads can see

A state lists the cells whose address was handed to another thread, and says whether there are other
threads at all.  Transfer functions only add to the list, and nothing is assumed of the answers that
a step gets.

The start of a thread hands out what the new thread can reach, and once there are several threads,
so does a store to a cell that other threads can see.  A cell that was handed out is read as any
value.
-/

namespace StaticAnalysis

open Bool Fault List SortedSet Bool

namespace State

open Step

variable {env : Env} {s t r : State} {v : Value} {c d : Cell}

lemma Spreads.refl (s : State) : s.Spreads s := ⟨fun _ => id, id⟩

lemma Spreads.trans (hst : s.Spreads t) (htr : t.Spreads r) : s.Spreads r :=
  ⟨fun c hc => htr.escaped c (hst.escaped c hc), fun h => htr.multithreaded (hst.multithreaded h)⟩

lemma spreads_set (h : s.set c v = .ok r) : s.Spreads r := by
  obtain ⟨cells, rfl, -⟩ := set_spec h
  exact ⟨fun _ => id, id⟩

/-- Another state covers a reachable one: what others can see in this they can see in that. -/
def Includes (s r : State) : Prop := s.reachable = true → r.reachable = true ∧ s.Spreads r

lemma reachable_of_isBottom (h : s.isBottom = false) : s.reachable := by
  simp only [isBottom, or_eq_false_iff, not_eq_false'] at h
  exact h.1

lemma Includes.refl (s : State) : s.Includes s := fun h => ⟨h, .refl s⟩

lemma Includes.trans (hst : s.Includes t) (htr : t.Includes r) : s.Includes r := fun h =>
  ⟨(htr (hst h).1).1, (hst h).2.trans (htr (hst h).1).2⟩

lemma includes_join (h : s.join t = .ok r) : s.Includes r ∧ t.Includes r := by
  rcases merge_cases h with ⟨hs, rfl⟩ | ⟨hs, ht, rfl⟩ | ⟨-, -, h⟩
  · exact ⟨fun h => absurd (hs.symm.trans h) false_ne_true, fun ht => ⟨ht, .refl r⟩⟩
  · exact ⟨fun hs => ⟨hs, .refl r⟩, fun h => absurd (ht.symm.trans h) false_ne_true⟩
  · constructor
    · refine fun _ => ⟨h.reachable, fun c hc => ?_, fun hs => ?_⟩
      · exact h.escaped ▸ mem_union.2 (.inl hc)
      · rw [h.multithreaded, hs, Bool.true_or]
    · refine fun _ => ⟨h.reachable, fun c hc => ?_, fun ht => ?_⟩
      · exact h.escaped ▸ mem_union.2 (.inr hc)
      · rw [h.multithreaded, ht, Bool.or_true]

lemma spreads_of_le (h : s.le r = .ok true) (hs : s.isBottom = false) :
    r.isBottom = false ∧ s.Spreads r := by
  unfold le at h
  rw [hs] at h
  cases hr : r.isBottom with
  | true => simp [hr] at h
  | false =>
    simp only [hr] at h
    obtain ⟨cells, -, h⟩ := bind_eq_ok.1 h
    obtain ⟨kept, -, h⟩ := bind_eq_ok.1 h
    obtain ⟨copies, -, h⟩ := bind_eq_ok.1 h
    have h := Except.ok.inj h
    simp only [and_eq_true, or_eq_true, not_eq_true'] at h
    refine ⟨rfl, subset_iff.1 h.2, fun hthreads => ?_⟩
    exact h.1.1.1.2.resolve_left (by simp [hthreads])

/-! ## Handing out addresses -/

/-- The cells behind a value: those it points to and what can be reached from there.  There is no
result if a pointer may point anywhere. -/
def behind (s : State) (v : Value) : Except Fault (Option (SortedSet Cell)) := do
  match ← v.pointees? with
  | some roots => s.reachableCells roots
  | none => return none

/-- Whether a cell is handed out with a set of cells: it is in the set, or listed if the set is not
known.  Globals and heap objects are visible to all threads as they are. -/
def Hands (s : State) (reach : Option (SortedSet Cell)) (c : Cell) : Prop :=
  c.isGlobal = false ∧ c.isHeap = false ∧ reach.elim (c ∈ s.cells.keys) (c ∈ ·)

/-- A round of handing out addresses only adds to the list, and adds its cell unless that is shared
already. -/
def Adds (f : State → Cell → State) : Prop :=
  ∀ s c, s.Spreads (f s c) ∧ (c.isGlobal = false → c.isHeap = false → c ∈ (f s c).escaped)

lemma Adds.foldl {f : State → Cell → State} (hf : Adds f) (l : List Cell) (s : State) :
    s.Spreads (l.foldl f s) ∧
      ∀ c ∈ l, c.isGlobal = false → c.isHeap = false → c ∈ (l.foldl f s).escaped := by
  induction l generalizing s with
  | nil => exact ⟨.refl s, fun c hc => absurd hc not_mem_nil⟩
  | cons d l ih =>
    obtain ⟨hspreads, hmem⟩ := ih (f s d)
    refine ⟨(hf s d).1.trans hspreads, fun c hc hglobal hheap => ?_⟩
    rcases mem_cons.1 hc with rfl | hc
    · exact hspreads.escaped c ((hf s c).2 hglobal hheap)
    · exact hmem c hc hglobal hheap

lemma escape_spec (function : String) (cells : Option (List Cell)) :
    s.Spreads (s.escape function cells) ∧
      ∀ c ∈ cells.getD (s.cells.keys.filter fun c => !c.isGlobal && !c.isHeap),
        c.isGlobal = false → c.isHeap = false → c ∈ (s.escape function cells).escaped := by
  refine Adds.foldl (fun s c => ?_) _ s
  extract_lets s'
  -- Before a cell is added, the relations forget about its variable.
  have hs' : s.Spreads s' := by
    dsimp only [s']
    split
    · split <;> exact ⟨fun _ => id, id⟩
    · exact .refl s
  split
  next hshared => exact ⟨hs', fun hglobal hheap => by simp [hglobal, hheap] at hshared⟩
  next =>
    exact ⟨hs'.trans ⟨fun d hd => mem_insert.2 (.inr hd), id⟩, fun _ _ => mem_insert.2 (.inl rfl)⟩

variable {reach : Option (SortedSet Cell)} {callee function : String} {strong : Bool} {a b : Expr}
  {target : Option LValue} {op : CmpOp} {args : List Expr}

lemma Hands.mem_escape (h : s.Hands reach c) (function : String) :
    c ∈ (s.escape function (reach.map (·.toList))).escaped := by
  obtain ⟨hglobal, hheap, hc⟩ := h
  refine (escape_spec function _).2 c ?_ hglobal hheap
  cases reach with
  | none => exact List.mem_filter.2 ⟨hc, by simp [hglobal, hheap]⟩
  | some cells => exact hc

lemma escapeValue_spec (h : s.escapeValue env v = .ok r) :
    ∃ reach, s.behind v = .ok reach ∧ r = s.escape env.function (reach.map (·.toList)) := by
  unfold behind
  obtain ⟨cells, hcells, h⟩ := bind_eq_ok.1 h
  rw [hcells]
  split at h
  · obtain ⟨reach, hreach, h⟩ := bind_eq_ok.1 h
    cases h
    exact ⟨reach, hreach, rfl⟩
  · cases h
    exact ⟨none, rfl, rfl⟩

def Exposes (s : State) (c : Cell) : Prop := s.multithreaded = true ∧ c ∈ s.escaped

lemma Exposes.spread (h : s.Exposes c) (hsr : s.Spreads r) : r.Exposes c :=
  ⟨hsr.multithreaded h.1, hsr.escaped c h.2⟩

/-- What other threads can see is read as any value, and so is every part of it. -/
lemma Exposes.loadCell_eq (h : s.Exposes c) (hmodular : env.modular = false)
    (hc : c.isGlobal = false) (hd : d.isWithin c) : s.loadCell env d = pure .top := by
  have hglobal : d.isGlobal = false := by
    simp only [Cell.isWithin, and_eq_true, beq_iff_eq] at hd
    rw [Cell.isGlobal, hd.1]
    exact hc
  have hescaped : s.isEscaped d = true := any_eq_true.2 ⟨c, h.2, hd⟩
  simp [loadCell, ofCaller, hmodular, h.1, hglobal, hescaped]

/-! ## Stores -/

lemma spreads_guardRelation (h : s.guardRelation env op a b = .ok r) : s.Spreads r := by
  unfold guardRelation at h
  split at h
  · cases h
    exact .refl s
  obtain ⟨o, -, h⟩ := bind_eq_ok.1 h
  cases o with
  | none =>
    cases h
    exact .refl s
  | some form =>
    obtain ⟨relation, -, h⟩ := bind_eq_ok.1 h
    dsimp only at h
    split at h
    · cases h
      exact ⟨fun _ => id, id⟩
    have hstart : s.Spreads { s with relation } := ⟨fun _ => id, id⟩
    refine foldlM_induct (fun t name u _ ht h => ?_) hstart h
    split at h
    · cases h
      exact ht
    obtain ⟨v, -, h⟩ := bind_eq_ok.1 h
    split at h
    · cases h
      exact ht.trans ⟨fun _ => id, id⟩
    · exact ht.trans (spreads_set h)

/-- What is kept when other threads see more is kept by transfer functions. -/
lemma invariance_of_spreads {I : State → Prop} (hI : ∀ {s t : State}, I s → s.Spreads t → I t) :
    Invariance .all .free env (fun _ => True) I where
  top := trivial
  bottom := trivial
  addr _ := trivial
  havoc _ := trivial
  join _ _ _ := trivial
  meet _ _ _ := trivial
  meetTarget _ _ _ _ _ := trivial
  value := meets_free _
  writeLocks := meets_free _
  parts := (meets_free _).mono fun _ _ _ _ _ => trivial
  offers _ _ := trivial
  cells _ _ _ _ := trivial
  copies _ _ _ _ := trivial
  kept _ _ _ _ := trivial
  amend hs hst := hI hs hst.spreads
  merge hs ht h := by
    rcases merge_cases h with ⟨-, rfl⟩ | ⟨-, -, rfl⟩ | ⟨hreachable, -, -⟩
    exacts [ht, hs, hI hs ((includes_join h).1 hreachable).2]
  escape hs := hI hs (escape_spec _ _).1
  tracked hs _ := ⟨fun _ => trivial, fun _ => hI hs ⟨fun _ => id, id⟩⟩
  unconstrained hs := hI hs ⟨fun _ => id, id⟩
  field := id
  unknown := trivial
  int _ := trivial
  restrict _ _ := trivial
  dividends _ _ _ _ := trivial
  comparison _ _ _ := ⟨trivial, trivial⟩
  guardRelation hs h := hI hs (spreads_guardRelation h)
  eval _ _ _ := meets_free _
  evalCond _ _ _ := meets_free _
  resolve _ _ _ := (meets_free _).mono fun _ _ => .inr fun _ => trivial
  readLValue _ _ _ := meets_free _

lemma invariance_spreads (s : State) : Invariance .all .free env (fun _ => True) s.Spreads :=
  invariance_of_spreads .trans

/-- Whether other threads can see a cell, once there are any. -/
def isShared (s : State) (c : Cell) : Bool := c.isGlobal || c.isHeap || s.isEscaped c

lemma isShared_of_tracked {name : String} (h : s.tracked env name) :
    s.isShared (env.varCell name) = false := by
  simp only [tracked, and_eq_true, not_eq_true'] at h
  have hcell : env.varCell name = .ofLocal env.function name := by simp [Env.varCell, h.1.1.2]
  unfold isShared
  rw [h.2, hcell]
  rfl

/-- A store to a cell that other threads can see hands out what is behind the value. -/
lemma setCell_spec : (s.setCell env c v strong).Meets .free fun r =>
    s.Spreads r ∧ (env.modular = false → s.multithreaded → s.isShared c →
      ∀ reach d, s.behind v = .ok reach → s.Hands reach d → d ∈ r.escaped) := by
  refine (invariance_of_spreads fun hs hst => ⟨hs.1.trans hst,
    fun hmodular hthreads hc reach d hreach hd =>
    hst.escaped d (hs.2 hmodular hthreads hc reach d hreach hd)⟩).setCell_of_escape trivial ?_ ?_
  · exact fun hs => ⟨.refl s, fun hmodular hthreads hc => by
      cases hc.symm.trans (hs hmodular hthreads)⟩
  · intro t ht
    obtain ⟨reach, hreach, rfl⟩ := escapeValue_spec ht
    refine ⟨(escape_spec env.function _).1, fun _ _ _ reach' d hreach' hd => ?_⟩
    cases hreach.symm.trans hreach'
    exact hd.mem_escape env.function

lemma store_singleton {p : Place} (hp : p.isCell) :
    s.store env [p] v = s.setCell env p.cell v (p.cell.base.isUnique && !p.inner) := by
  unfold store
  rw [foldlM_cons, if_pos hp]
  exact bind_pure _

/-! ## Calls -/

lemma spreads_enter :
    (s.enter env callee args).Meets .free fun r => r.1.isBottom = false → s.Spreads r.1 := by
  unfold enter
  split
  · exact meets_pure fun h => by cases h
  · refine (meets_free _).bind fun values _ => (meets_free _).bind fun reach _ => ?_
    extract_lets visited bound
    refine Meets.bind (Q := s.Spreads) ?_ fun entry hentry => ?_
    · refine meets_foldlM (fun t p _ ht => ?_) ⟨fun _ => id, id⟩
      exact (invariance_spreads s).bindParam (fun _ _ => meets_free _) ht fun _ _ =>
        ⟨trivial, trivial⟩
    have hdone : ∀ relation : Relation, s.Spreads { entry with relation } :=
      fun relation => ⟨hentry.escaped, hentry.multithreaded⟩
    split
    · exact (meets_free _).bind fun relation _ => meets_pure fun _ => hdone relation
    · exact (meets_free _).bind fun relation _ => meets_pure fun _ => hdone relation

lemma spreads_resyncRelation (h : resyncRelation env reach s = .ok r) : s.Spreads r := by
  refine foldlM_induct (fun t name u _ ht h => ht.trans ?_) (.refl s) h
  dsimp only at h
  split at h
  · obtain ⟨relation, -, h⟩ := bind_eq_ok.1 h
    cases h
    exact ⟨fun _ => id, id⟩
  · cases h
    exact .refl _

lemma spreads_combine {exit : State} : (s.combine env callee exit reach target).Meets .free
      fun r => r.reachable → exit.reachable ∧ exit.Spreads r := by
  unfold combine
  split
  · exact meets_pure fun h => absurd h false_ne_true
  next hreachable =>
    have hexit : exit.reachable = true := by simp_all
    extract_lets hidden kept cells
    refine meets_lift_bind fun t ht => ?_
    have hspreads : exit.Spreads t :=
      ⟨(spreads_resyncRelation ht).escaped, (spreads_resyncRelation ht).multithreaded⟩
    split
    · refine ((invariance_spreads exit).assignValue hspreads trivial trivial).mono fun r hr _ => ?_
      exact ⟨hexit, hr⟩
    · exact meets_pure fun _ => ⟨hexit, hspreads⟩

lemma spreads_applySummary {summary : Summary} :
    (s.applySummary env callee summary args target).Meets .free
      fun r => r.reachable → s.Spreads r := by
  refine ((invariance_spreads s).applySummary (.refl s) ⟨trivial, fun _ _ _ => trivial⟩
    (fun _ _ => trivial) fun _ _ => trivial).mono ?_
  rintro r (rfl | hr) hreachable
  exacts [absurd hreachable false_ne_true, hr]

/-! ## Threads -/

def argument (env : Env) (s : State) : Option Expr → Step (Option Value)
  | some e => some <$> s.eval env e
  | none => return none

def start (env : Env) (s : State) (function : String) (thread : ThreadId) (value : Option Value) :
    Step (ThreadId × State × State) := do
  let reach ← s.spawnReach value
  let s := s.escape env.function (reach.map (·.toList))
  let s ← if s.multithreaded then s.announcePending env else s.announceGlobals env
  let s := { s with created := s.created.insert thread }
  let start := { unknown env.settings.relation with multithreaded := true, escaped := s.escaped }
  match (env.graph.function? function).bind (·.params.head?), value with
  | some param, some v => return (thread, s, ← start.set (.ofLocal function param.name) v)
  | _, _ => return (thread, s, start)

lemma spawn_eq {arg : Option Expr} : s.spawn env function arg = (do
    let thread ← newThread env function
    let value ← s.argument env arg
    s.start env function thread value) := by
  cases arg <;> rfl

/-- The creator of a thread and the new thread know of what could be seen before, and of what the
new thread can reach. -/
structure Started (s : State) (reach : Option (SortedSet Cell)) (r : State) : Prop where
  spreads : s.Spreads r
  handed : ∀ c, s.Hands reach c → r.Exposes c

lemma Started.spread (h : s.Started reach t) (htr : t.Spreads r) : s.Started reach r :=
  ⟨h.spreads.trans htr, fun c hc => (h.handed c hc).spread htr⟩

lemma started_start {thread : ThreadId} {value : Option Value} :
    (s.start env function thread value).Meets .free fun r => ∃ reach,
      s.spawnReach value = .ok reach ∧ r.1 = thread ∧ s.Started reach r.2.1 ∧
        s.Started reach r.2.2 ∧ r.2.2.isBottom = false := by
  unfold start
  refine meets_lift_bind fun reach hreach => ?_
  extract_lets s' initial rest
  have hs' := (escape_spec env.function (s := s) (reach.map (·.toList))).1
  have hrest : ∀ t : State, s'.Spreads t → t.multithreaded = true → (rest t).Meets .free fun r =>
      ∃ reach, s.spawnReach value = .ok reach ∧ r.1 = thread ∧ s.Started reach r.2.1 ∧
        s.Started reach r.2.2 ∧ r.2.2.isBottom = false := by
    intro t ht hthreads
    have hcreator : s.Started reach t :=
      ⟨hs'.trans ht, fun c hc => ⟨hthreads, ht.escaped c (hc.mem_escape env.function)⟩⟩
    have hcreated : t.Spreads { t with created := t.created.insert thread } := ⟨fun _ => id, id⟩
    dsimp -zeta only [rest]
    extract_lets t' new
    have hnew : t.Spreads new := ⟨fun _ => id, fun _ => rfl⟩
    have hpossible : new.isBottom = false := by
      change (unknown env.settings.relation).isBottom = false
      cases env.settings.relation <;> decide
    split
    · refine meets_lift_bind fun u hu => meets_pure ⟨reach, hreach, rfl,
        hcreator.spread hcreated, ?_, ?_⟩
      · exact hcreator.spread (hnew.trans (spreads_set hu))
      · obtain ⟨cells, rfl, -⟩ := set_spec hu
        exact hpossible
    · exact meets_pure ⟨reach, hreach, rfl, hcreator.spread hcreated, hcreator.spread hnew,
        hpossible⟩
  split
  next hthreads =>
    refine ((invariance_spreads s').announcePending (.refl s')).bind fun t ht => ?_
    exact hrest t ht (ht.multithreaded hthreads)
  next =>
    exact ((invariance_spreads s').announceGlobals (.refl s')).bind fun t ht => hrest t ht.1 ht.2

lemma spreads_step {a : Action} : (s.step env a).Meets .free s.Spreads := by
  refine (invariance_spreads s).step (.refl s) ?_
  cases a with
  | assign lv e => exact ⟨trivial, trivial⟩
  | ret e => cases e <;> trivial
  | _ => trivial

end State
end StaticAnalysis
