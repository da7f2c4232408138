import Mathlib.Logic.Relation
import StaticAnalysis.Analyzer
import StaticAnalysis.Proofs.Solver.PostFixpoint
import StaticAnalysis.Proofs.Transfer.Sharing

/-!
# Cells that threads share

Once a solution has handed out the address of a cell, it trusts no value of the cell any more: along
every way that a thread takes from there, through calls and into the threads that it starts, the
cell is read as any value.  This holds of every solution that is a post-fixpoint.

A thread that already runs does not learn of it, although it can get the address from a global, and
trusts its own stores to the cell.
-/

namespace StaticAnalysis

open Bool Fault List Option State Step

lemma GlobalValue.exists_state_of_le {s : State} {v : GlobalValue}
    (h : (GlobalValue.state s).le v = .ok true) (hs : s.isBottom = false) :
    ∃ t, v = .state t ∧ s.le t = .ok true := by
  cases v with
  | state t => exact ⟨t, rfl, h⟩
  | bottom => exact absurd (hs.symm.trans (Except.ok.inj h)) Bool.false_ne_true
  | _ => cases h

/-! ## Steps that a solution answers -/

namespace Solution

variable {α β : Type} {sol : Solution} {a : α} {x : Step α}

/-- The result of a step if a solution answers its questions.  There is none if the step faults or
contributes what the solution does not bound. -/
def answer? (sol : Solution) : Step α → Option α
  | .done a => some a
  | .fault _ => none
  | .lookup key next => sol.answer? (next (sol.globals.value key))
  | .stateAt p next => sol.answer? (next (sol.states.get? p))
  | .contribute key v next =>
    match v.le (sol.globals.value key) with
    | .ok true => sol.answer? next
    | _ => none

lemma answer?_bind {f : α → Step β} {b : β} :
    sol.answer? (x >>= f) = some b ↔ ∃ a, sol.answer? x = some a ∧ sol.answer? (f a) = some b := by
  change sol.answer? (x.bind f) = some b ↔ _
  induction x with
  | done a => simp [Step.bind, answer?]
  | fault e => simp [Step.bind, answer?]
  | lookup key next ih => exact ih _
  | stateAt p next ih => exact ih _
  | contribute key v next ih =>
    simp only [Step.bind, answer?]
    split
    · exact ih
    · simp

lemma answer?_lift {e : Except Fault α} : sol.answer? (liftM e) = some a ↔ e = .ok a := by
  cases e with
  | ok b => exact some_inj.trans ⟨congrArg Except.ok, Except.ok.inj⟩
  | error f =>
    constructor
    all_goals
      intro h
      cases h

lemma answer?_pure {b : α} : sol.answer? (pure b : Step α) = some a ↔ b = a := some_inj

variable {key : GlobalKey} {made : List (GlobalKey × GlobalValue)} {r : Recheck}

lemma answer?_lookup {f : GlobalValue → Step α} :
    sol.answer? (Shared.lookup key >>= f) = sol.answer? (f (sol.globals.value key)) := rfl

lemma answer?_stateAt {p : Point} {f : Option State → Step α} :
    sol.answer? (Shared.stateAt p >>= f) = sol.answer? (f (sol.states.get? p)) := rfl

lemma answer?_contribute {v : GlobalValue} {u : Unit} :
    sol.answer? (Shared.contribute key v) = some u ↔ v.le (sol.globals.value key) = .ok true := by
  change (match v.le (sol.globals.value key) with
    | .ok true => some ()
    | _ => none) = some u ↔ _
  split
  next h => simp [h]
  next h =>
    refine ⟨fun heq => ?_, fun heq => absurd heq h⟩
    cases heq

lemma answer?_meets {Q : α → Prop} (hx : x.Meets .free Q) (h : sol.answer? x = some a) : Q a := by
  induction x with
  | done b =>
    cases h
    exact hx
  | fault e => cases h
  | lookup key next ih => exact ih _ (hx _ trivial) h
  | stateAt p next ih => exact ih _ (hx.2 _ trivial) h
  | contribute key v next ih =>
    simp only [answer?] at h
    split at h
    · exact ih (hx.2 trivial) h
    · cases h

lemma answer?_of_run (h : x.run (⟨sol, made⟩ : Recheck) = .ok a r) : (∀ e ∈ made, e ∈ r.made) ∧
    ((∀ e ∈ r.made, e.2.le (sol.globals.value e.1) = .ok true) → sol.answer? x = some a) := by
  induction x generalizing made with
  | done b =>
    cases h
    exact ⟨fun _ => id, fun _ => rfl⟩
  | fault e => cases h
  | lookup key next ih => exact ih _ h
  | stateAt p next ih => exact ih _ h
  | contribute key v next ih =>
    obtain ⟨hkept, hanswer⟩ := ih h
    refine ⟨fun e he => hkept e (mem_append_left _ he), fun hmade => ?_⟩
    simp only [answer?, hmade (key, v) (hkept _ (by simp))]
    exact hanswer hmade

variable {g : Graph} {settings : Settings} {p q : Point} {s : State} {c d : Cell}

lemma answer?_of_isPostFixpoint (hfix : sol.isPostFixpoint g settings = .ok true)
    (hp : sol.states.get? p = some s) :
    ∃ a, sol.answer? (evaluate g settings p) = some a ∧ a.le s = .ok true := by
  have hbounded := of_allM_eq_true hfix _ (SortedMap.get?_eq_some_iff.1 hp)
  unfold isBounded at hbounded
  dsimp only at hbounded
  split at hbounded
  next a r hrun =>
    obtain ⟨b, hle, hbounded⟩ := bind_eq_ok.1 hbounded
    cases b with
    | false => cases hbounded
    | true => exact ⟨a, (answer?_of_run hrun).2 (of_allM_eq_true hbounded), hle⟩
  next => cases hbounded

/-! ## The equations -/

/-- What an edge into a point leads to is included in a state. -/
def EdgeIncluded (sol : Solution) (g : Graph) (settings : Settings) (p : Point) (function : String)
    (r : State) (id : Nat) (e : Edge) : Prop :=
  ∀ before after, sol.states.get? ⟨e.src, p.context⟩ = some before → before.isBottom = false →
    sol.answer? (transfer g settings function p.context id e before) = some after → after.Includes r

lemma includes_of_joinEdge {function : String} {acc r : State} {id : Nat} {e : Edge}
    (h : sol.answer? (joinEdge g settings function p acc id e) = some r) :
    acc.Includes r ∧ sol.EdgeIncluded g settings p function r id e := by
  rw [joinEdge, answer?_stateAt] at h
  split at h
  next hnone =>
    cases h
    refine ⟨.refl acc, fun before after hbefore => ?_⟩
    cases hnone.symm.trans hbefore
  next t ht =>
    split at h
    next hbottom =>
      cases h
      refine ⟨.refl acc, fun before after hbefore hpossible => ?_⟩
      cases ht.symm.trans hbefore
      cases hbottom.symm.trans hpossible
    next =>
      obtain ⟨u, hu, h⟩ := answer?_bind.1 h
      obtain ⟨hacc, hedge⟩ := includes_join (answer?_lift.1 h)
      refine ⟨hacc, fun before after hbefore _ hafter => ?_⟩
      cases ht.symm.trans hbefore
      cases hu.symm.trans hafter
      exact hedge

lemma includes_of_foldlM {function : String} {l : List (Nat × Edge)} {acc r : State}
    (h : sol.answer? (l.foldlM (fun acc (id, e) => joinEdge g settings function p acc id e) acc) =
      some r) :
    acc.Includes r ∧ ∀ id e, (id, e) ∈ l → sol.EdgeIncluded g settings p function r id e := by
  induction l generalizing acc with
  | nil =>
    cases h
    exact ⟨.refl _, fun id e he => absurd he not_mem_nil⟩
  | cons ie l ih =>
    rw [foldlM_cons] at h
    obtain ⟨acc', hacc', h⟩ := answer?_bind.1 h
    obtain ⟨hinto, hedge⟩ := includes_of_joinEdge hacc'
    obtain ⟨hrest, hmem⟩ := ih h
    refine ⟨hinto.trans hrest, fun id e he before after hbefore hpossible hafter => ?_⟩
    rcases mem_cons.1 he with rfl | he
    · exact (hedge before after hbefore hpossible hafter).trans hrest
    · exact hmem id e he before after hbefore hpossible hafter

lemma includes_of_evaluate {a : State} (h : sol.answer? (evaluate g settings p) = some a) :
    ∃ function entry, g.functionOf p.node = .ok function ∧
      sol.answer? (entryState g function p) = some entry ∧ entry.Includes a ∧
      ∀ id e, (id, e) ∈ g.edgesInto p.node → sol.EdgeIncluded g settings p function a id e := by
  obtain ⟨function, hfunction, h⟩ := answer?_bind.1 h
  obtain ⟨entry, hentry, h⟩ := answer?_bind.1 h
  obtain ⟨r, hfold, h⟩ := answer?_bind.1 h
  have hr : r = a := by
    dsimp only at h
    split at h
    · obtain ⟨-, -, h⟩ := answer?_bind.1 h
      exact answer?_pure.1 h
    · exact answer?_pure.1 h
  subst hr
  exact ⟨function, entry, answer?_lift.1 hfunction, hentry, includes_of_foldlM hfold⟩

/-! ## Ways through a solution -/

/-- According to its equation, a point is reached. -/
def Reached (sol : Solution) (g : Graph) (settings : Settings) (p : Point) : Prop :=
  ∃ a, sol.answer? (evaluate g settings p) = some a ∧ a.isBottom = false

/-- An edge into a point, from a possible state to the state after it. -/
structure Takes (sol : Solution) (g : Graph) (settings : Settings) (q : Point) (function : String)
    (id : Nat) (e : Edge) (before after : State) : Prop where
  mem_edges : (id, e) ∈ g.edgesInto q.node
  function_eq : g.functionOf q.node = .ok function
  state_eq : sol.states.get? ⟨e.src, q.context⟩ = some before
  possible : before.isBottom = false
  transfer_eq : sol.answer? (transfer g settings function q.context id e before) = some after

/-- The point at which a function is entered. -/
structure Enters (g : Graph) (name : String) (f : Function) : Prop where
  function_eq : g.function? name = some f
  name_eq : g.functionOf f.entry = .ok name

/-- A thread gets from one point to another: along an edge, into a function that is called, back
from it, or as a thread that is started. -/
inductive Flows (sol : Solution) (g : Graph) (settings : Settings) : Point → Point → Prop
  | edge {q : Point} {function : String} {id : Nat} {e : Edge} {before after : State}
      (h : sol.Takes g settings q function id e before after) (hafter : after.reachable = true)
      (hreached : sol.Reached g settings q)
      (hcall : ∀ target callee args, e.action = .call target callee args →
        settings.isModularCall q.context callee = true) :
      Flows sol g settings ⟨e.src, q.context⟩ q
  | enter {q : Point} {function callee : String} {id : Nat} {e : Edge} {before after entry : State}
      {target : Option LValue} {args : List Expr} {inner : Context}
      {reach : Option (SortedSet Cell)}
      {f : Function} (h : sol.Takes g settings q function id e before after)
      (haction : e.action = .call target callee args)
      (hmodular : settings.isModularCall q.context callee = false)
      (hinner : settings.context.callee q.context id function callee = .ok inner)
      (hentry : sol.answer? (before.enter (.onEdge g settings function q.context id) callee args) =
        some (entry, reach))
      (hpossible : entry.isBottom = false) (hf : Enters g callee f)
      (hreached : sol.Reached g settings ⟨f.entry, inner⟩) :
      Flows sol g settings ⟨e.src, q.context⟩ ⟨f.entry, inner⟩
  | leave {q : Point} {function callee : String} {id : Nat} {e : Edge} {before after : State}
      {target : Option LValue} {args : List Expr} {inner : Context} {f : Function}
      (h : sol.Takes g settings q function id e before after)
      (haction : e.action = .call target callee args)
      (hmodular : settings.isModularCall q.context callee = false)
      (hinner : settings.context.callee q.context id function callee = .ok inner)
      (hf : Enters g callee f) (hafter : after.reachable = true)
      (hreached : sol.Reached g settings q) :
      Flows sol g settings ⟨f.exit, inner⟩ q
  | start {q : Point} {function callee : String} {id : Nat} {e : Edge} {before after : State}
      {arg : Option Expr} {thread : ThreadId} {f : Function}
      (h : sol.Takes g settings q function id e before after) (haction : e.action = .spawn callee arg)
      (hthread : newThread (.onEdge g settings function q.context id) callee = .ok thread)
      (hf : Enters g callee f)
      (hreached : sol.Reached g settings ⟨f.entry, settings.context.root thread callee⟩) :
      Flows sol g settings ⟨e.src, q.context⟩ ⟨f.entry, settings.context.root thread callee⟩

/-! ## Handing out -/

/-- An action hands out the address of a cell: it starts a thread that can reach the cell or, once
there are several threads, stores a value that leads to it where other threads can see the value. -/
inductive HandsOut (sol : Solution) (env : Env) (s : State) (c : Cell) : Action → Prop
  | start {function : String} {arg : Option Expr} {value : Option Value}
      {reach : Option (SortedSet Cell)} (hvalue : sol.answer? (s.argument env arg) = some value)
      (hreach : s.spawnReach value = .ok reach) (hc : s.Hands reach c) :
      HandsOut sol env s c (.spawn function arg)
  | store {lv : LValue} {e : Expr} {v : Value} {p : Place} {reach : Option (SortedSet Cell)}
      (hmodular : env.modular = false) (hthreads : s.multithreaded = true)
      (htype : ∀ name, env.lvalueType? lv ≠ some (.struct name))
      (hv : sol.answer? (s.eval env e) = some v)
      (hplace : sol.answer? (s.resolve env lv) = some (some [p])) (hcell : p.isCell = true)
      (hshared : s.isShared p.cell = true) (hreach : s.behind v = .ok reach)
        (hc : s.Hands reach c) :
      HandsOut sol env s c (.assign lv e)

/-- A thread comes to a point right after an edge that hands out the address of a cell, or starts
there by such an edge. -/
inductive Discloses (sol : Solution) (g : Graph) (settings : Settings) (c : Cell) : Point → Prop
  | edge {q : Point} {function : String} {id : Nat} {e : Edge} {before after : State}
      (h : sol.Takes g settings q function id e before after) (hafter : after.reachable = true)
      (hreached : sol.Reached g settings q)
      (hc : sol.HandsOut (.onEdge g settings function q.context id) before c e.action) :
      Discloses sol g settings c q
  | start {q : Point} {function callee : String} {id : Nat} {e : Edge} {before after : State}
      {arg : Option Expr} {thread : ThreadId} {f : Function}
      (h : sol.Takes g settings q function id e before after) (haction : e.action = .spawn callee arg)
      (hc : sol.HandsOut (.onEdge g settings function q.context id) before c (.spawn callee arg))
      (hthread : newThread (.onEdge g settings function q.context id) callee = .ok thread)
      (hf : Enters g callee f)
      (hreached : sol.Reached g settings ⟨f.entry, settings.context.root thread callee⟩) :
      Discloses sol g settings c ⟨f.entry, settings.context.root thread callee⟩

/-! ## What stays exposed -/

/-- Other threads can see a cell in the state of a point, if there is one. -/
def Exposes (sol : Solution) (c : Cell) (p : Point) : Prop :=
  ∀ s, sol.states.get? p = some s → s.Exposes c

section

variable (hfix : sol.isPostFixpoint g settings = .ok true)
include hfix

lemma exposes_of_reached (hreached : sol.Reached g settings p)
    (hc : ∀ a, sol.answer? (evaluate g settings p) = some a → a.Exposes c) : sol.Exposes c p := by
  intro s hs
  obtain ⟨a, ha, hpossible⟩ := hreached
  obtain ⟨a', ha', hle⟩ := answer?_of_isPostFixpoint hfix hs
  cases ha.symm.trans ha'
  exact (hc a ha).spread (spreads_of_le hle hpossible).2

lemma exposes_of_takes {function : String} {id : Nat} {e : Edge} {before after : State}
    (h : sol.Takes g settings p function id e before after)
    (hafter : after.reachable) (hreached : sol.Reached g settings p) (hc : after.Exposes c) :
    sol.Exposes c p := by
  refine exposes_of_reached hfix hreached fun a ha => ?_
  obtain ⟨function', entry, hfunction, -, -, hedges⟩ := includes_of_evaluate ha
  cases h.function_eq.symm.trans hfunction
  exact hc.spread (hedges id e h.mem_edges before after h.state_eq h.possible h.transfer_eq hafter).2

lemma exposes_of_entry {function : String}
    {f : Function} {context : Context} {entry : State} (hf : Enters g function f)
    (hle : (GlobalValue.state entry).le (sol.globals.value (.entry function context)) = .ok true)
    (hpossible : entry.isBottom = false) (hreached : sol.Reached g settings ⟨f.entry, context⟩)
    (hc : entry.Exposes c) : sol.Exposes c ⟨f.entry, context⟩ := by
  refine exposes_of_reached hfix hreached fun a ha => ?_
  obtain ⟨function', entry', hfunction, hentry, hincludes, -⟩ := includes_of_evaluate ha
  cases hf.name_eq.symm.trans hfunction
  obtain ⟨t, ht, hle⟩ := GlobalValue.exists_state_of_le hle hpossible
  obtain ⟨hpossible', hspreads⟩ := spreads_of_le hle hpossible
  have hentry' : entry' = t := by
    unfold entryState at hentry
    rw [if_pos (by simp [hf.function_eq]), answer?_lookup, ht] at hentry
    exact (answer?_pure.1 hentry).symm
  subst hentry'
  exact (hc.spread hspreads).spread (hincludes (reachable_of_isBottom hpossible')).2

end

section Transitions

variable {env : Env} {function : String} {context : Context} {id : Nat} {e : Edge} {r : State}

/-- Edges that are not calls into a function only add to what others can see, and so do calls
through a summary. -/
lemma spreads_transfer (hcall : ∀ target callee args, e.action = .call target callee args →
      settings.isModularCall context callee) :
    (transfer g settings function context id e s).Meets .free
      fun r => r.reachable → s.Spreads r := by
  unfold transfer
  split
  · exact meets_pure fun h => absurd h Bool.false_ne_true
  extract_lets env
  split
  next target callee args haction =>
    rw [if_pos (hcall target callee args haction)]
    refine (meets_free _).bind fun _ _ => (meets_free _).bind fun _ _ => ?_
    exact (meets_free _).bind fun _ _ => spreads_applySummary
  next f arg _ =>
    unfold transferSpawn
    rw [spawn_eq]
    refine Meets.bind (Q := fun r => s.Spreads r.2.1) ?_ fun r hr => ?_
    · refine (meets_free _).bind fun thread _ => (meets_free _).bind fun value _ => ?_
      exact started_start.mono fun r ⟨_, _, _, hcreator, _⟩ => hcreator.spreads
    · exact (meets_free _).bind fun _ _ => meets_pure fun _ => hr
  next => exact spreads_step.mono fun r hr _ => hr

variable {target : Option LValue} {callee : String} {args : List Expr} {arg : Option Expr}
  {lv : LValue} {x : Expr}

section

variable {before after : State} (h : sol.Takes g settings q function id e before after)
include h

lemma Takes.answer_call (haction : e.action = .call target callee args)
    (hmodular : settings.isModularCall q.context callee = false) :
    sol.answer? (transferCall (.onEdge g settings function q.context id) q.context before target callee
      args) = some after := by
  simpa [transfer, reachable_of_isBottom h.possible, haction, hmodular,
    Env.onEdge] using h.transfer_eq

lemma Takes.answer_spawn (haction : e.action = .spawn callee arg) :
    sol.answer? (transferSpawn (.onEdge g settings function q.context id) before callee arg) =
      some after := by
  simpa [transfer, reachable_of_isBottom h.possible, haction, Env.onEdge] using h.transfer_eq

lemma Takes.answer_assign (haction : e.action = .assign lv x) :
    sol.answer? (before.step (.onEdge g settings function q.context id) (.assign lv x)) =
      some after := by
  simpa [transfer, reachable_of_isBottom h.possible, haction, Env.onEdge] using h.transfer_eq

end

/-- A call of a function offers the state in which the function is entered, and goes on from the
state in which it returns. -/
lemma transferCall_cases (h : sol.answer? (transferCall env context s target callee args) = some r)
    {inner : Context}
    (hinner : env.settings.context.callee context env.edge env.function callee = .ok inner) :
    ∃ entry reach, sol.answer? (s.enter env callee args) = some (entry, reach) ∧
      ((entry.isBottom ∧ r = unreachable) ∨ entry.isBottom = false ∧
        (GlobalValue.state entry).le (sol.globals.value (.entry callee inner)) = .ok true ∧
        ∃ exit, sol.answer? (Shared.exitState env.graph callee inner) = some exit ∧
          sol.answer? (s.combine env callee exit reach target) = some r) := by
  obtain ⟨inner', hinner', h⟩ := answer?_bind.1 h
  cases hinner.symm.trans (answer?_lift.1 hinner')
  obtain ⟨⟨entry, reach⟩, hentry, h⟩ := answer?_bind.1 h
  refine ⟨entry, reach, hentry, ?_⟩
  dsimp only at h
  split at h
  next hbottom => exact .inl ⟨hbottom, (answer?_pure.1 h).symm⟩
  next hpossible =>
    obtain ⟨_, hle, h⟩ := answer?_bind.1 h
    obtain ⟨exit, hexit, h⟩ := answer?_bind.1 h
    exact .inr ⟨by simpa using hpossible, answer?_contribute.1 hle, exit, hexit, h⟩

/-- A thread that is started is offered a state in which it knows what it can reach, as does the
state of its creator. -/
lemma transferSpawn_cases (h : sol.answer? (transferSpawn env s callee arg) = some r) :
    ∃ thread value reach start, newThread env callee = .ok thread ∧
      sol.answer? (s.argument env arg) = some value ∧ s.spawnReach value = .ok reach ∧
      s.Started reach r ∧ s.Started reach start ∧ start.isBottom = false ∧
      (GlobalValue.state start).le
        (sol.globals.value (.entry callee (env.settings.context.root thread callee))) =
        .ok true := by
  unfold transferSpawn at h
  rw [spawn_eq] at h
  obtain ⟨⟨thread, t, start⟩, hspawn, h⟩ := answer?_bind.1 h
  obtain ⟨_, hle, h⟩ := answer?_bind.1 h
  cases answer?_pure.1 h
  obtain ⟨thread', hthread, hspawn⟩ := answer?_bind.1 hspawn
  obtain ⟨value, hvalue, hspawn⟩ := answer?_bind.1 hspawn
  obtain ⟨reach, hreach, hsame, hcreator, hstart, hpossible⟩ := answer?_meets started_start hspawn
  cases hsame
  exact ⟨thread, value, reach, start, answer?_lift.1 hthread, hvalue, hreach, hcreator, hstart,
    hpossible, answer?_contribute.1 hle⟩

lemma exitState_eq {name : String} {f : Function} (hf : g.function? name = some f) {exit : State}
    (h : sol.answer? (Shared.exitState g name context) = some exit) (hexit : exit.reachable) :
    sol.states.get? ⟨f.exit, context⟩ = some exit := by
  unfold Shared.exitState at h
  rw [hf] at h
  change some ((sol.states.get? ⟨f.exit, context⟩).getD unreachable) = some exit at h
  cases hstate : sol.states.get? ⟨f.exit, context⟩ with
  | none =>
    rw [hstate] at h
    cases h
    cases hexit
  | some t =>
    rw [hstate] at h
    exact h

lemma exposes_of_assign {v : Value} {p : Place} {reach : Option (SortedSet Cell)}
    (hmodular : env.modular = false) (hthreads : s.multithreaded)
    (htype : ∀ name, env.lvalueType? lv ≠ some (.struct name))
    (hv : sol.answer? (s.eval env x) = some v)
    (hplace : sol.answer? (s.resolve env lv) = some (some [p])) (hcell : p.isCell)
    (hshared : s.isShared p.cell) (hreach : s.behind v = .ok reach) (hc : s.Hands reach c)
    (h : sol.answer? (s.step env (.assign lv x)) = some r) (hr : r.reachable) :
    r.Exposes c := by
  unfold step at h
  split at h
  next hunreachable =>
    cases answer?_pure.1 h
    simp [hr] at hunreachable
  obtain ⟨t, ht, h⟩ := answer?_bind.1 h
  cases answer?_pure.1 h
  have htr : t.reachable = true := (and_eq_true_iff.1 hr).1
  suffices hexposes : t.Exposes c from hexposes
  replace ht : sol.answer? (s.assignScalar env lv x) = some t := assign_eq htype s x ▸ ht
  obtain ⟨v', hv', ht⟩ := answer?_bind.1 ht
  cases hv.symm.trans hv'
  obtain ⟨b, -, ht⟩ := answer?_bind.1 ht
  split at ht
  · cases answer?_pure.1 ht
    cases htr
  split at ht
  next name htracked =>
    cases lv with
    | var y =>
      obtain ⟨htracked, hname⟩ := ite_none_right_eq_some.1 htracked
      cases hplace
      cases hshared.symm.trans (isShared_of_tracked htracked)
    | _ => cases htracked
  next =>
    obtain ⟨places, hplaces, ht⟩ := answer?_bind.1 ht
    cases hplace.symm.trans hplaces
    replace ht : sol.answer? (s.store env [p] v) = some t := ht
    rw [store_singleton hcell] at ht
    have hstore := answer?_meets setCell_spec ht
    exact ⟨hstore.1.multithreaded hthreads, hstore.2 hmodular hthreads hshared reach c hreach hc⟩

end Transitions

section

variable (hfix : sol.isPostFixpoint g settings = .ok true)
include hfix

/-- Along each part of a way, what was exposed stays so. -/
lemma Flows.exposes (h : sol.Flows g settings p q) (hc : sol.Exposes c p) : sol.Exposes c q := by
  cases h with
  | edge h hafter hreached hcall =>
    have hspreads := answer?_meets (spreads_transfer hcall) h.transfer_eq hafter
    exact exposes_of_takes hfix h hafter hreached ((hc _ h.state_eq).spread hspreads)
  | enter h haction hmodular hinner hentry hpossible hf hreached =>
    obtain ⟨entry, reach, hentry', hcases⟩ := transferCall_cases (h.answer_call haction hmodular)
      hinner
    cases hentry.symm.trans hentry'
    rcases hcases with ⟨hbottom, -⟩ | ⟨-, hle, -⟩
    · cases hbottom.symm.trans hpossible
    · have hspreads := answer?_meets spreads_enter hentry hpossible
      exact exposes_of_entry hfix hf hle hpossible hreached ((hc _ h.state_eq).spread hspreads)
  | leave h haction hmodular hinner hf hafter hreached =>
    obtain ⟨entry, reach, -, hcases⟩ := transferCall_cases (h.answer_call haction hmodular) hinner
    rcases hcases with ⟨-, rfl⟩ | ⟨-, -, exit, hexit, hcombine⟩
    · cases hafter
    · obtain ⟨hexit', hspreads⟩ := answer?_meets spreads_combine hcombine hafter
      have hstate := exitState_eq hf.function_eq hexit hexit'
      exact exposes_of_takes hfix h hafter hreached ((hc _ hstate).spread hspreads)
  | start h haction hthread hf hreached =>
    obtain ⟨thread, value, reach, start, hthread', -, -, -, hstart, hpossible, hle⟩ :=
      transferSpawn_cases (h.answer_spawn haction)
    cases hthread.symm.trans hthread'
    exact exposes_of_entry hfix hf hle hpossible hreached ((hc _ h.state_eq).spread hstart.spreads)

lemma exposes_of_way (hc : sol.Exposes c p)
    (hway : Relation.ReflTransGen (sol.Flows g settings) p q) : sol.Exposes c q := by
  induction hway with
  | refl => exact hc
  | tail _ hflow ih => exact hflow.exposes hfix ih

lemma Discloses.exposes (h : sol.Discloses g settings c p) : sol.Exposes c p := by
  cases h with
  | @edge _ function id e before after h hafter hreached hc =>
    refine exposes_of_takes hfix h hafter hreached ?_
    generalize haction : e.action = a at hc
    cases hc with
    | start hvalue hreach hc =>
      obtain ⟨thread, value, reach, start, -, hvalue', hreach', hcreator, -⟩ :=
        transferSpawn_cases (h.answer_spawn haction)
      cases hvalue.symm.trans hvalue'
      cases hreach.symm.trans hreach'
      exact hcreator.handed c hc
    | store hmodular hthreads htype hv hplace hcell hshared hreach hc =>
      exact exposes_of_assign hmodular hthreads htype hv hplace hcell hshared hreach hc
        (h.answer_assign haction) hafter
  | start h haction hc hthread hf hreached =>
    obtain ⟨thread, value, reach, start, hthread', hvalue, hreach, -, hstart, hpossible, hle⟩ :=
      transferSpawn_cases (h.answer_spawn haction)
    cases hthread.symm.trans hthread'
    cases hc with
    | start hvalue' hreach' hc =>
      cases hvalue.symm.trans hvalue'
      cases hreach.symm.trans hreach'
      exact exposes_of_entry hfix hf hle hpossible hreached (hstart.handed c hc)

end

lemma HandsOut.isGlobal {env : Env} {a : Action} (h : sol.HandsOut env s c a) :
    c.isGlobal = false := by
  cases h with
  | start _ _ hc => exact hc.1
  | store _ _ _ _ _ _ _ _ hc => exact hc.1

lemma Discloses.isGlobal (h : sol.Discloses g settings c p) : c.isGlobal = false := by
  cases h with
  | edge _ _ _ hc => exact hc.isGlobal
  | start _ _ hc _ _ _ => exact hc.isGlobal

/-- A cell whose address was handed out is trusted nowhere on a way from there: on its thread, in
the functions that it calls and in the threads that it starts, the cell and every part of it are
read as any value, whatever was stored there before.  Addresses are handed out when a thread is
started and, once there are several threads, by stores to what other threads can see. -/
theorem loadCell_of_disclosed (hfix : sol.isPostFixpoint g settings = .ok true)
    (hp : sol.Discloses g settings c p) (hway : Relation.ReflTransGen (sol.Flows g settings) p q)
    (hq : sol.states.get? q = some s) {env : Env} (hmodular : env.modular = false)
    (hd : d.isWithin c = true) : s.multithreaded = true ∧ s.loadCell env d = pure .top := by
  have hexposes := exposes_of_way hfix (hp.exposes hfix) hway s hq
  exact ⟨hexposes.1, hexposes.loadCell_eq hmodular hp.isGlobal hd⟩

end Solution

/-! ## A thread that does not learn of an address -/

namespace Solver

/-- The main thread starts another one, and only then puts the address of its `x` into `g`. -/
def lateSharing : Graph :=
  (Graph.ofFunctions { globals := .ofList [("g", ⟨⟨"g", .ptr .int⟩, []⟩)] } [
    ⟨"w", [], [], .block [
      .act (.assign (.deref (.read (.var "g"))) (.const 5)),
      .act (.check 0 (.cmp .eq (.read (.deref (.read (.var "g")))) (.const 5)))]⟩,
    ⟨"main", [], [⟨"x", .int⟩], .block [
      .act (.spawn "w" none),
      .act (.assign (.var "g") (.addrOf (.var "x"))),
      .act (.assign (.var "x") (.const 1))]⟩]).toOption.getD {}

def lateSolution : Solution := (new lateSharing {}).solve.toOption.getD default

def sharedLocal : Cell := .ofLocal "main" "x"

/-- A point of the main thread of `lateSharing`. -/
def mainPoint (node : Nat) : Point := ⟨node, .main, .callString []⟩

/-- A point of the thread that it starts. -/
def workerPoint (node : Nat) : Point := ⟨node, .created .main 3 "w" true, .callString []⟩

/-- The main thread puts the address of `x` into `g`. -/
def storeAddress : Edge := ⟨6, 7, .assign (.var "g") (.addrOf (.var "x"))⟩

/-- It assigns to `x` afterwards. -/
def assignShared : Edge := ⟨7, 8, .assign (.var "x") (.const 1)⟩

/-- Whether a state is one in which that store hands out `x`. -/
def handsOutShared (s : State) : Bool :=
  let env := Env.onEdge lateSharing {} "main" (mainPoint 7).context 4
  s.multithreaded &&
    lateSolution.answer? (s.eval env (.addrOf (.var "x"))) = some (.addr (.cell sharedLocal)) &&
    lateSolution.answer? (s.resolve env (.var "g")) = some (some [.ofCell (.ofGlobal "g")]) &&
    s.behind (.addr (.cell sharedLocal)) = .ok (some (.singleton sharedLocal))

/-- Whether an edge of the main thread can be taken, from a state that passes a test. -/
def takesEdge (id : Nat) (e : Edge) (test : State → Bool) : Bool :=
  (lateSolution.states.get? (mainPoint e.src)).any fun s => test s && !s.isBottom &&
    (lateSolution.answer? (transfer lateSharing {} "main" (mainPoint e.dst).context id e s)).any
      State.reachable

/-- Whether a point is reached according to its equation. -/
def reaches (p : Point) : Bool :=
  (lateSolution.answer? (evaluate lateSharing {} p)).any (!·.isBottom)

lemma lateSharing_solved :
    (new lateSharing {}).solve.toBool ∧
      lateSolution.isPostFixpoint lateSharing {} = .ok true ∧
      takesEdge 4 storeAddress handsOutShared ∧
      takesEdge 5 assignShared (fun _ => true) ∧
      reaches (mainPoint 7) ∧ reaches (mainPoint 8) ∧
      (lateSolution.states.get? (mainPoint 8)).isSome := by
  decide +kernel

lemma solve_lateSharing : (new lateSharing {}).solve = .ok lateSolution := by
  have hok := lateSharing_solved.1
  unfold lateSolution
  cases h : (new lateSharing {}).solve with
  | error e => simp [h, Except.toBool] at hok
  | ok sol => rfl

lemma takes_of_takesEdge {id : Nat} {e : Edge} {test : State → Bool}
    (hedge : (id, e) ∈ lateSharing.edgesInto e.dst)
    (hfunction : lateSharing.functionOf e.dst = .ok "main") (h : takesEdge id e test) :
    ∃ before after, lateSolution.Takes lateSharing {} (mainPoint e.dst) "main" id e before after ∧
      test before ∧ after.reachable := by
  obtain ⟨before, hbefore, h⟩ := (Option.any_eq_true _ _).1 h
  simp only [and_eq_true, not_eq_true'] at h
  obtain ⟨after, hafter, hreachable⟩ := (Option.any_eq_true _ _).1 h.2
  exact ⟨before, after, ⟨hedge, hfunction, hbefore, h.1.2, hafter⟩, h.1.1, hreachable⟩

lemma reached_of_reaches {p : Point} (h : reaches p) : lateSolution.Reached lateSharing {} p := by
  obtain ⟨a, ha, hpossible⟩ := (Option.any_eq_true _ _).1 h
  exact ⟨a, ha, by simpa using hpossible⟩

lemma disclosed_lateSharing : lateSolution.Discloses lateSharing {} sharedLocal (mainPoint 7) := by
  obtain ⟨-, -, hstore, -, hreached, -⟩ := lateSharing_solved
  obtain ⟨before, after, htakes, htest, hafter⟩ :=
    takes_of_takesEdge (by decide +kernel) (by decide +kernel) hstore
  simp only [handsOutShared, and_eq_true, decide_eq_true_eq] at htest
  obtain ⟨⟨⟨hthreads, hvalue⟩, hplace⟩, hreach⟩ := htest
  refine .edge htakes hafter (reached_of_reaches hreached) ?_
  have htype : (Env.onEdge lateSharing {} "main" (mainPoint 7).context 4).lvalueType? (.var "g") =
      some (.ptr .int) := by
    decide +kernel
  exact .store rfl hthreads (fun name => by simp [htype]) hvalue hplace rfl rfl hreach
    ⟨by decide, by decide, SortedSet.mem_singleton.2 rfl⟩

lemma flows_lateSharing : lateSolution.Flows lateSharing {} (mainPoint 7) (mainPoint 8) := by
  obtain ⟨-, -, -, hassign, -, hreached, -⟩ := lateSharing_solved
  obtain ⟨before, after, htakes, -, hafter⟩ :=
    takes_of_takesEdge (by decide +kernel) (by decide +kernel) hassign
  exact .edge htakes hafter (reached_of_reaches hreached) fun _ _ _ h => by cases h

/-- The main thread does not trust its `x` once it has stored the address, although it assigns to
`x` afterwards. -/
theorem loadCell_of_disclosed_lateSharing : (new lateSharing {}).solve = .ok lateSolution ∧
    ∃ s, lateSolution.states.get? (mainPoint 8) = some s ∧ s.multithreaded = true ∧
      s.loadCell (.onEdge lateSharing {} "main" (mainPoint 5).context 6) sharedLocal =
      pure .top := by
  obtain ⟨-, hfix, -, -, -, -, hsome⟩ := lateSharing_solved
  obtain ⟨s, hs⟩ := isSome_iff_exists.1 hsome
  exact ⟨solve_lateSharing, s, hs, Solution.loadCell_of_disclosed hfix disclosed_lateSharing
    (.single flows_lateSharing) hs rfl (by decide)⟩

/-- The other thread gets the address from `g`.  It then takes `x` to hold what it stored there
itself, although the main thread assigns to `x` as well, and the check that `x` is five is
proven. -/
theorem worker_trusts_shared_local : (new lateSharing {}).solve = .ok lateSolution ∧
    (∃ s, lateSolution.states.get? (workerPoint 3) = some s ∧ s.multithreaded = true ∧
      lateSolution.answer? (s.loadCell (.onEdge lateSharing {} "w" (workerPoint 1).context 2)
        sharedLocal) = some (.ofInt 5)) ∧
    (analyze lateSharing {}).toOption.map AnalysisResult.verdicts = some [.proven] := by
  have hworker : ((lateSolution.states.get? (workerPoint 3)).any fun s => s.multithreaded &&
        lateSolution.answer? (s.loadCell (.onEdge lateSharing {} "w" (workerPoint 1).context 2)
          sharedLocal) = some (.ofInt 5)) = true ∧
      (analyze lateSharing {}).toOption.map AnalysisResult.verdicts = some [.proven] := by
    decide +kernel
  obtain ⟨s, hs, h⟩ := (Option.any_eq_true _ _).1 hworker.1
  exact ⟨solve_lateSharing, ⟨s, hs, by simpa using h⟩, hworker.2⟩

end Solver
end StaticAnalysis
