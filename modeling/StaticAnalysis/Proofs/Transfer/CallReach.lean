import StaticAnalysis.Proofs.Memory.Pointers
import StaticAnalysis.Proofs.Order.Reachability
import StaticAnalysis.Proofs.Shared.Steps
import StaticAnalysis.Transfer.Call

/-!
# What a callee can reach

A call hides from the callee the locals of the caller that it cannot reach, and restores them when
it returns.  The cells that it may reach are a closed set: they contain what the arguments, the
globals and the heap objects point to, and with a cell the listed parts of it and what these point
to.  So every pointer that a concrete callee can follow leads into the set, if the analysis knows
where the pointers of the memory lead.

A value about which nothing is known may be any pointer, but is taken to point nowhere: what it
points to is hidden from the callee, and restored after the callee has changed it.
-/

namespace StaticAnalysis

open Fault List Option SortedMap Step

/-! ## Closed sets of cells -/

/-- It is known what a value points to, and all of it is in a set. -/
def Value.PointsInto (v : Value) (r : SortedSet Cell) : Prop :=
  ∃ cells, v.pointees? = .ok (some cells) ∧ ∀ c ∈ cells, c ∈ r

lemma Cell.isWithin_iff {c d : Cell} : c.isWithin d ↔ c.base = d.base ∧ d.path <+: c.path := by
  simp [isWithin]

namespace State

variable {s : State} {r : SortedSet Cell} {c d : Cell} {v : Value}
variable {next : List Cell} {values : List Value}

lemma mem_reachedFrom (h : s.reachedFrom c = .ok next) (hd : s.cells.get? d = some v)
    (hin : d.isWithin c) : d ∈ next ∧ ∃ cells, v.pointees? = .ok (some cells) ∧ ∀ e ∈ cells,
    e ∈ next := by
  obtain ⟨lists, hlists, h⟩ := bind_eq_ok.1 h
  cases h
  obtain ⟨found, hmem, hfound⟩ := exists_of_mapM hlists (mem_filter.2 ⟨get?_eq_some_iff.1 hd, hin⟩)
  dsimp only at hfound
  split at hfound
  next cells hcells =>
    cases hfound
    exact ⟨mem_flatten.2 ⟨_, hmem, mem_cons_self⟩, cells, hcells,
      fun e he => mem_flatten.2 ⟨_, hmem, mem_cons_of_mem _ he⟩⟩
  all_goals cases hfound

lemma reachedFrom_cases (h : s.reachedFrom c = .ok next) (hd : d ∈ next) :
    ∃ e v cells, s.cells.get? e = some v ∧ v.pointees? = .ok (some cells) ∧ d ∈ e :: cells := by
  obtain ⟨lists, hlists, h⟩ := bind_eq_ok.1 h
  cases h
  obtain ⟨found, hfound, hd⟩ := mem_flatten.1 hd
  obtain ⟨⟨e, v⟩, hentry, hfound⟩ := mem_of_mapM hlists hfound
  have hv := get?_eq_some_iff.2 (mem_filter.1 hentry).1
  dsimp only at hfound
  split at hfound
  next cells hcells =>
    cases hfound
    exact ⟨e, v, cells, hv, hcells, hd⟩
  all_goals cases hfound

/-- With each cell a set has its listed parts, and what these point to. -/
def IsEnclosed (s : State) (r : SortedSet Cell) : Prop :=
  ∀ c ∈ r, ∀ d v, s.cells.get? d = some v → d.isWithin c = true → d ∈ r ∧ v.PointsInto r

lemma reachableCells_spec {roots : List Cell} (h : s.reachableCells roots = .ok (some r)) :
    (∀ c ∈ roots, c ∈ r) ∧ s.IsEnclosed r := by
  unfold reachableCells at h
  dsimp only at h
  split at h
  next cells hreach =>
    cases h
    obtain ⟨hroots, hclosed⟩ := Closure.reach_closed (fun c hc => mem_append_left _ hc)
      (fun c _ next hnext d hd => by
        obtain ⟨e, v, cells, he, hcells, hd⟩ := reachedFrom_cases hnext hd
        refine mem_append_right _ (mem_flatMap.2 ⟨_, get?_eq_some_iff.1 he, ?_⟩)
        simpa [hcells] using hd) hreach
    refine ⟨hroots, fun c hc d v hd hin => ?_⟩
    obtain ⟨next, hnext, hmem⟩ := hclosed c hc
    obtain ⟨hd, cells, hcells, hpointees⟩ := mem_reachedFrom hnext hd hin
    exact ⟨hmem d hd, cells, hcells, fun e he => hmem e (hpointees e he)⟩
  all_goals cases h

lemma pointsInto_of_pointeesOf {cells : List Cell} (h : pointeesOf values = .ok (some cells))
    (hcells : ∀ c ∈ cells, c ∈ r) : ∀ v ∈ values, v.PointsInto r := by
  induction values generalizing cells with
  | nil => exact fun v hv => absurd hv not_mem_nil
  | cons w values ih =>
    obtain ⟨own, hown, h⟩ := bind_eq_ok.1 h
    cases own with
    | none => cases h
    | some own =>
      obtain ⟨rest, hrest, h⟩ := bind_eq_ok.1 h
      obtain ⟨rest, rfl, rfl⟩ := map_eq_some_iff.1 (Except.ok.inj h)
      obtain ⟨hin, hin'⟩ := forall_mem_append.1 hcells
      exact forall_mem_cons.2 ⟨⟨own, hown, hin⟩, ih hrest hin'⟩

/-! ## The reach of a call -/

/-- What a call may reach: a closed set that has all that the arguments, the globals and the heap
objects point to. -/
structure CallEncloses (s : State) (values : List Value) (r : SortedSet Cell) : Prop where
  args : ∀ v ∈ values, v.PointsInto r
  shared : ∀ c v, s.cells.get? c = some v → c.isGlobal = true ∨ c.isHeap = true → v.PointsInto r
  closed : s.IsEnclosed r

lemma mem_of_mapM_id {α : Type} {l : List (Option α)} {xs : List α} (h : l.mapM id = some xs) :
    ∀ o ∈ l, ∃ x ∈ xs, o = some x := by
  induction l generalizing xs with
  | nil => exact fun o ho => absurd ho not_mem_nil
  | cons o l ih =>
    simp only [mapM_cons, bind_eq_bind, bind_eq_some_iff, Option.pure_def] at h
    obtain ⟨x, hx, ys, hys, h⟩ := h
    cases h
    refine forall_mem_cons.2 ⟨⟨x, mem_cons_self, hx⟩, fun p hp => ?_⟩
    obtain ⟨y, hy, rfl⟩ := ih hys p hp
    exact ⟨y, mem_cons_of_mem _ hy, rfl⟩

lemma callReach_spec (h : s.callReach values = .ok (some r)) : s.CallEncloses values r := by
  obtain ⟨passed, hpassed, h⟩ := bind_eq_ok.1 h
  obtain ⟨shared, hshared, h⟩ := bind_eq_ok.1 h
  split at h
  next roots hroots =>
    obtain ⟨hin, hclosed⟩ := reachableCells_spec h
    have hlist : ∀ o ∈ passed ++ [shared], ∃ cells, o = some cells ∧ ∀ c ∈ cells, c ∈ r := by
      intro o ho
      obtain ⟨cells, hcells, rfl⟩ := mem_of_mapM_id hroots o ho
      exact ⟨cells, rfl, fun c hc => hin c (mem_flatten.2 ⟨cells, hcells, hc⟩)⟩
    constructor
    case args =>
      intro v hv
      obtain ⟨o, hmem, ho⟩ := exists_of_mapM hpassed hv
      obtain ⟨cells, rfl, hcells⟩ := hlist o (mem_append_left _ hmem)
      exact ⟨cells, ho, hcells⟩
    case shared =>
      intro c v hv hc
      obtain ⟨cells, rfl, hcells⟩ := hlist shared (mem_append_right _ mem_cons_self)
      refine pointsInto_of_pointeesOf hshared hcells v (mem_map.2 ⟨(c, v), ?_, rfl⟩)
      refine get?_eq_some_iff.1 ?_
      rw [get?_filter, hv]
      simpa using hc
    case closed => exact hclosed
  next => cases h

section Runs

variable {ς : Type} [SharedStore ς] {env : Env} {callee : String} {store store' : ς}

lemma callReach_of_enter {args : List Expr} {entry : State}
    (h : (s.enter env callee args).run store = .ok (entry, some r) store') :
    ∃ values between, (s.evalArgs env args).run store = .ok values between ∧
      s.callReach values = .ok (some r) := by
  unfold enter at h
  split at h
  · cases h
  obtain ⟨values, between, hvalues, h⟩ := run_bind_eq_ok.1 h
  obtain ⟨reach, between', hreach, h⟩ := run_bind_eq_ok.1 h
  obtain ⟨hreach, -⟩ := run_lift_eq_ok.1 hreach
  obtain ⟨bound, store₁, -, h⟩ := run_bind_eq_ok.1 h
  suffices hsame : reach = some r from ⟨values, between, hvalues, hsame ▸ hreach⟩
  dsimp only at h
  split at h <;> obtain ⟨relation, store₂, -, h⟩ := run_bind_eq_ok.1 h <;> cases h <;> rfl

variable {reach : Option (SortedSet Cell)} {t : State}

lemma cells_resyncRelation (h : s.resyncRelation env reach = .ok t) : t.cells = s.cells := by
  refine foldlM_induct ?_ rfl h
  intro t name t' _ ht hstep
  dsimp only at hstep
  split at hstep
  · obtain ⟨relation, -, hstep⟩ := bind_eq_ok.1 hstep
    cases hstep
    exact ht
  · cases hstep
    exact ht

lemma get?_combine_of_hidden {exit : State} (hs : s.reachable) (hexit : exit.reachable)
    (h : (s.combine env callee exit reach none).run store = .ok t store')
    (hv : s.cells.get? c = some v)
    (hc : visible reach c = false) : t.cells.get? c = some v := by
  unfold combine at h
  simp only [hs, hexit, Bool.not_true, Bool.or_self, Bool.false_eq_true, if_false] at h
  obtain ⟨t', between, hresync, h⟩ := run_bind_eq_ok.1 h
  cases h
  have hcells := cells_resyncRelation (run_lift_eq_ok.1 hresync).1
  have hhidden : (s.cells.filter fun c _ => !visible reach c).get? c = some v := by
    simp [get?_filter, hv, hc]
  rw [hcells]
  refine (get?_foldl_insert id (SortedMap.sorted _) _ c).trans ?_
  rw [show SortedMap.lookup c _ = some v from hhidden]
  rfl

end Runs

end State

/-! ## Concrete memories -/

namespace Memory

variable {ω : Type} (m : Memory ω)

/-- A value stands for a datum and, unless there is no pointer in the datum, something is known
about the value. -/
def Locates (v : Value) (d : Datum ω) : Prop :=
  m.Describes v d ∧ (v.IsUnknown → ∀ o path, ¬ d.PointsTo o path)

/-- A state describes what the memory holds, and knows something about every cell with a pointer. -/
def LocatedBy (s : State) : Prop :=
  ∀ o path d, m.content o path = some d → m.Locates (s.get (m.cell o path)) d

variable {m} {s : State} {r : SortedSet Cell} {v : Value} {d : Datum ω} {o : ω} {path : List String}

lemma Locates.mem_of_pointsInto (h : m.Locates v d) (hv : v.PointsInto r)
    (hpoint : d.PointsTo o path) : m.cell o path ∈ r := by
  obtain ⟨cells, hcells, hin⟩ := hv
  have hknown : ¬ v.IsUnknown := fun hunknown => h.2 hunknown o path hpoint
  exact hin _ (Value.mem_pointeesWith le_rfl (Value.mayPoint_of_describes h.1 hpoint) hknown hcells)

lemma LocatedBy.exists_get? (h : m.LocatedBy s) (hd : m.content o path = some d) {o' : ω}
    {path' : List String} (hpoint : d.PointsTo o' path') :
    ∃ v, s.cells.get? (m.cell o path) = some v ∧ m.Locates v d := by
  have hlocates := h o path d hd
  rw [State.get, getD_eq] at hlocates
  cases hv : s.cells.get? (m.cell o path) with
  | some v => exact ⟨v, rfl, by simpa [hv] using hlocates⟩
  | none =>
    rw [hv] at hlocates
    exact absurd hpoint (hlocates.2 rfl o' path')

variable {values : List Value} {ds : List (Datum ω)}

lemma exists_locates (h : List.Forall₂ m.Locates values ds) (hd : d ∈ ds) :
    ∃ v ∈ values, m.Locates v d := by
  induction h with
  | nil => cases hd
  | cons hvd _ ih =>
    rcases mem_cons.1 hd with rfl | hd
    · exact ⟨_, mem_cons_self, hvd⟩
    · exact (ih hd).imp fun v hv => ⟨mem_cons_of_mem _ hv.1, hv.2⟩

/-- The invariant of following pointers: what is reached is part of a cell of the set. -/
lemma Reaches.covered (hs : m.LocatedBy s) (hds : List.Forall₂ m.Locates values ds)
    (hr : s.CallEncloses values r) (h : m.Reaches (m.CallRoot ds) o path) : ∃ c ∈ r,
    (m.cell o path).isWithin c := by
  have hself : ∀ c : Cell, c.isWithin c = true := fun c => Cell.isWithin_iff.2 ⟨rfl, prefix_refl _⟩
  induction h with
  | root hd hpoint =>
    refine ⟨_, ?_, hself _⟩
    rcases hd with hd | ⟨o, path, hd, hc⟩
    · obtain ⟨v, hv, hlocates⟩ := exists_locates hds hd
      exact hlocates.mem_of_pointsInto (hr.args v hv) hpoint
    · obtain ⟨v, hv, hlocates⟩ := hs.exists_get? hd hpoint
      exact hlocates.mem_of_pointsInto (hr.shared _ v hv hc) hpoint
  | part _ rest ih =>
    obtain ⟨c, hc, hin⟩ := ih
    obtain ⟨hbase, hpath⟩ := Cell.isWithin_iff.1 hin
    exact ⟨c, hc, Cell.isWithin_iff.2 ⟨hbase, hpath.trans (prefix_append _ rest)⟩⟩
  | step _ hd hpoint ih =>
    obtain ⟨c, hc, hin⟩ := ih
    obtain ⟨v, hv, hlocates⟩ := hs.exists_get? hd hpoint
    exact ⟨_, hlocates.mem_of_pointsInto (hr.closed c hc _ v hv hin).2 hpoint, hself _⟩

end Memory

namespace State

/-- A call hides nothing that its callee can reach, if the state knows something about every
pointer.  Whatever a callee gets to by following pointers, from the arguments, the globals and the
heap objects on, is part of a cell of the reach, and is in the reach if the state lists it.  So a
cell that is hidden from the callee is none that it could have changed. -/
theorem reach_of_enter_sound {ω ς : Type} [SharedStore ς] {m : Memory ω} {env : Env}
    {s entry : State} {callee : String} {args : List Expr} {ds : List (Datum ω)}
    {reach : SortedSet Cell} {store store' : ς} (hs : m.LocatedBy s)
    (hds : ∀ values between, (s.evalArgs env args).run store = .ok values between →
      List.Forall₂ m.Locates values ds)
    (h : (s.enter env callee args).run store = .ok (entry, some reach) store') :
    (∀ o path, m.Reaches (m.CallRoot ds) o path →
      (∃ c ∈ reach, (m.cell o path).isWithin c = true) ∧
      ∀ v, s.cells.get? (m.cell o path) = some v → m.cell o path ∈ reach) ∧
    ∀ c v, s.cells.get? c = some v → visible (some reach) c = false →
      (∀ o path, m.cell o path = c → ¬ m.Reaches (m.CallRoot ds) o path) ∧
      ∀ (exit t : State) (before after : ς), s.reachable = true → exit.reachable = true →
        (s.combine env callee exit (some reach) none).run before = .ok t after →
        t.cells.get? c = some v := by
  obtain ⟨values, between, hvalues, hreach⟩ := callReach_of_enter h
  have hencloses := callReach_spec hreach
  have hlisted : ∀ o path, m.Reaches (m.CallRoot ds) o path →
      (∃ c ∈ reach, (m.cell o path).isWithin c = true) ∧
      ∀ v, s.cells.get? (m.cell o path) = some v → m.cell o path ∈ reach := by
    intro o path hreaches
    obtain ⟨c, hc, hin⟩ := hreaches.covered hs (hds values between hvalues) hencloses
    exact ⟨⟨c, hc, hin⟩, fun v hv => (hencloses.closed c hc _ v hv hin).1⟩
  refine ⟨hlisted, fun c v hv hhidden => ⟨?_, fun exit t before after hreachable hexit ht => ?_⟩⟩
  · rintro o path rfl hreaches
    have hmem := (hlisted o path hreaches).2 v hv
    simp [visible, SortedSet.contains_iff.2 hmem] at hhidden
  · exact get?_combine_of_hidden hreachable hexit ht hv hhidden

/-- A program whose `main` calls a function with a pointer. -/
def passing : Env where
  graph := { functions := .ofList [("f", ⟨"f", [⟨"p", .ptr .int⟩], [], 0, 0⟩)] }
  settings := {}
  function := "main"
  thread := .main
  edge := 0
  modular := false

/-- The state in which `x` is zero, and `p` holds a value unless it is unknown. -/
def withPointer (p : Option Value) : State :=
  { unknown .none with
    cells := .ofList ((.ofLocal "main" "x", .ofInt 0) :: (p.map (.ofLocal "main" "p", ·)).toList) }

/-- The memory in which `p` points to `x`, which is zero. -/
def pointerToZero : Memory Bool where
  base o := .localVar "main" (if o then "x" else "p")
  content o path := if path = [] then some (if o then .number 0 else .pointer true []) else none

lemma content_pointerToZero {o : Bool} {path : List String} {d : Datum Bool}
    (h : pointerToZero.content o path = some d) :
    path = [] ∧ d = if o then .number 0 else .pointer true [] := by
  simp only [pointerToZero, ite_none_right_eq_some, Option.some.injEq] at h
  exact ⟨h.1, h.2.symm⟩

/-- The set of cells that a call of `f` with `p` is found to reach, if a set is given. -/
def reachFromPointer (s : State) : Option (SortedSet Cell) :=
  match (s.enter passing "f" [.read (.var "p")]).run (.empty : GlobalMap) with
  | .ok (_, reach) _ => reach
  | .error .. => none

lemma run_of_reachFromPointer {s : State} {r : SortedSet Cell} (h : s.reachFromPointer = some r) :
    ∃ entry after, (s.enter passing "f" [.read (.var "p")]).run (.empty : GlobalMap) =
      .ok (entry, some r) after := by
  unfold reachFromPointer at h
  split at h
  next entry reach after hrun =>
    cases h
    exact ⟨entry, after, hrun⟩
  next => cases h

/-- The analysis knows that `p` points to `x`, and the call finds that `x` can be reached. -/
theorem reach_of_enter_sound_passing :
    ∃ entry reach after, ((withPointer (some (.addr (.cell (.ofLocal "main" "x"))))).enter passing "f"
        [.read (.var "p")]).run (.empty : GlobalMap) = .ok (entry, some reach) after ∧
      Cell.ofLocal "main" "x" ∈ reach := by
  have hfound :
      ((withPointer (some (.addr (.cell (.ofLocal "main" "x"))))).reachFromPointer).isSome = true := by
    decide +kernel
  obtain ⟨reach, hreach⟩ := isSome_iff_exists.1 hfound
  obtain ⟨entry, after, h⟩ := run_of_reachFromPointer hreach
  have hx : pointerToZero.Locates (.addr (.cell (.ofLocal "main" "x"))) (.pointer true []) :=
    ⟨.target (SortedSet.mem_singleton.2 rfl), nofun⟩
  have hs : pointerToZero.LocatedBy (withPointer (some (.addr (.cell (.ofLocal "main" "x"))))) := by
    intro o path d hd
    obtain ⟨rfl, rfl⟩ := content_pointerToZero hd
    cases o with
    | true => exact ⟨.int (by decide), fun _ _ _ => nofun⟩
    | false => exact hx
  have hargs : ∀ values between, ((withPointer (some (.addr (.cell (.ofLocal "main" "x"))))).evalArgs
      passing [.read (.var "p")]).run (.empty : GlobalMap) = .ok values between →
      List.Forall₂ pointerToZero.Locates values [.pointer true []] := by
    rintro values between ⟨⟩
    exact .cons hx .nil
  have hreaches : pointerToZero.Reaches (pointerToZero.CallRoot [.pointer true []]) true [] :=
    .root (.inl List.mem_cons_self) .pointer
  exact ⟨entry, reach, after, h,
    ((reach_of_enter_sound hs hargs h).1 true [] hreaches).2 (.ofInt 0) rfl⟩

/-- Nothing is known about `p`, which may then point to `x`; but the call finds that nothing can be
reached, and `x` is hidden from the callee. -/
theorem hidden_behind_unknown :
    pointerToZero.DescribedBy (withPointer none) ∧
      (∃ after, ((withPointer none).evalArgs passing [.read (.var "p")]).run (.empty : GlobalMap) =
        .ok [.top] after) ∧
      List.Forall₂ pointerToZero.Describes [.top] [.pointer true []] ∧
      pointerToZero.Reaches (pointerToZero.CallRoot [.pointer true []]) true [] ∧
      ∃ entry after, ((withPointer none).enter passing "f" [.read (.var "p")]).run
          (.empty : GlobalMap) = .ok (entry, some .empty) after ∧
        visible (some .empty) (pointerToZero.cell true []) = false := by
  refine ⟨fun o path d hd => ?_, ⟨.empty, rfl⟩, .cons .top .nil,
    .root (.inl List.mem_cons_self) .pointer, ?_⟩
  · obtain ⟨rfl, rfl⟩ := content_pointerToZero hd
    cases o with
    | true => exact .int (by decide)
    | false => exact .top
  have hempty : (withPointer none).reachFromPointer = some .empty := by decide +kernel
  obtain ⟨entry, after, h⟩ := run_of_reachFromPointer hempty
  exact ⟨entry, after, h, by decide⟩

end State
end StaticAnalysis
