import Mathlib.Data.List.Perm.Subperm
import Mathlib.Logic.Relation
import StaticAnalysis.Proofs.Program.Placement
import StaticAnalysis.Proofs.Program.Scalar

/-!
# Where loops are cut

A state at a point depends on states at other points: along the edges of the program, from a call to
the start of the callee, and from the end of a callee to where the call returns.  Iteration
converges if every cycle of this relation holds a widening point, that is a loop head or the start
of a function.

The walk that finds loop heads is depth-first.  Its points, in the order in which they are finished,
have every successor that is no head finished before them (`Finished`), so that no cycle among them
avoids the heads.  A cycle that only returns climbs from callees to callers, which takes a recursive
function; it need not hold a widening point, as `addOnReturn` shows.
-/

namespace StaticAnalysis

open List SortedSet

namespace Graph

/-! ## Depth-first walks -/

/-- Points in the order of a walk, the last one finished first: every successor of a point is a head
or was finished before. -/
def Finished (next : Nat → List Nat) (heads : SortedSet Nat) (order : List Nat) : Prop :=
  ∀ n earlier, n :: earlier <:+ order → ∀ m ∈ next n, m ∈ heads ∨ m ∈ earlier

variable {next : Nat → List Nat} {heads heads' : SortedSet Nat} {order path : List Nat} {w : Walk}
variable {n fuel size a b : Nat} {walk l : List Nat}

section

variable (h : Finished next heads order)
include h

lemma Finished.successors (hn : n ∈ order) : ∀ m ∈ next n, m ∈ heads ∨ m ∈ order := by
  obtain ⟨later, earlier, rfl⟩ := append_of_mem hn
  exact fun m hm => (h n earlier ⟨later, rfl⟩ m hm).imp_right (by simp +contextual)

lemma Finished.mem_of_isChain (hn : ∀ m ∈ next n, m ∈ heads ∨ m ∈ order)
    (hchain : List.IsChain (fun a b => b ∈ next a) (n :: walk)) (hwalk : ∀ m ∈ walk, m ∉ heads) :
    ∀ m ∈ walk, m ∈ order := by
  induction walk generalizing n with
  | nil => simp
  | cons k walk ih =>
    obtain ⟨hk, hchain⟩ := isChain_cons_cons.1 hchain
    have hk : k ∈ order := (hn k hk).resolve_left (hwalk k mem_cons_self)
    intro m hm
    rcases mem_cons.1 hm with rfl | hm
    · exact hk
    · exact ih (h.successors hk) hchain (fun m hm => hwalk m (mem_cons_of_mem _ hm)) m hm

lemma Finished.exists_head (hnodup : order.Nodup) (hn : n ∈ order)
    (hchain : List.IsChain (fun a b => b ∈ next a) (n :: walk)) (hback : n ∈ walk) :
    ∃ m ∈ walk, m ∈ heads := by
  by_contra hnone
  push Not at hnone
  -- Behind `n` stand the points finished before it, and the walk cannot leave them.
  obtain ⟨later, earlier, rfl⟩ := append_of_mem hn
  have hsuffix : n :: earlier <:+ later ++ n :: earlier := ⟨later, rfl⟩
  have hearlier : Finished next heads earlier :=
    fun m e hm => h m e ((hm.trans (suffix_cons n earlier)).trans hsuffix)
  have hmem : n ∈ earlier := hearlier.mem_of_isChain (h n earlier hsuffix) hchain hnone n hback
  have := nodup_append.1 hnodup
  exact (nodup_cons.1 this.2.1).1 hmem

end

/-- What holds while a walk is under way: the points met are those on the path and those finished,
which all differ, and heads were met. -/
structure Explored (next : Nat → List Nat) (path order : List Nat) (w : Walk) : Prop where
  visited : ∀ n, n ∈ w.visited ↔ n ∈ path ∨ n ∈ order
  heads : ∀ n ∈ w.heads, n ∈ w.visited
  finished : Finished next w.heads order
  nodup : (path ++ order).Nodup

/-- From one state of a walk to a later one, the points `l` become heads or finished, and finished
points and heads are kept. -/
structure Settles (next : Nat → List Nat) (path order : List Nat) (w : Walk) (l order' : List Nat)
    (w' : Walk) : Prop where
  explored : Explored next path order' w'
  settled : ∀ m ∈ l, m ∈ w'.heads ∨ m ∈ order'
  order : ∀ m ∈ order, m ∈ order'
  heads : ∀ m ∈ w.heads, m ∈ w'.heads

lemma Explored.enter (h : Explored next path order w) (hn : n ∉ w.visited) :
    Explored next (n :: path) order { w with visited := w.visited.insert n } where
  visited m := by rw [mem_insert, h.visited, mem_cons, or_assoc]
  heads m hm := mem_insert.2 (.inr (h.heads m hm))
  finished := h.finished
  nodup := by
    refine nodup_cons.2 ⟨fun hmem => hn ?_, h.nodup⟩
    exact (h.visited n).2 (mem_append.1 hmem)

lemma Explored.leave (h : Explored next (n :: path) order w)
    (hn : ∀ m ∈ next n, m ∈ w.heads ∨ m ∈ order) : Explored next path (n :: order) w where
  visited m := by
    rw [h.visited, mem_cons, mem_cons]
    tauto
  heads := h.heads
  finished k earlier hk := by
    rcases suffix_cons_iff.1 hk with heq | hk
    · cases heq
      exact hn
    · exact h.finished k earlier hk
  nodup := perm_middle.nodup_iff.2 h.nodup

lemma Explored.mark (h : Explored next path order w) (hn : n ∈ path) :
    Explored next path order { w with heads := w.heads.insert n } where
  visited := h.visited
  heads m hm := by
    rcases mem_insert.1 hm with rfl | hm
    exacts [(h.visited _).2 (.inl hn), h.heads m hm]
  finished := fun k e hk m hm => (h.finished k e hk m hm).imp_left fun hm => mem_insert.2 (.inr hm)
  nodup := h.nodup

lemma settles_foldl {f : Walk → Nat → Walk} (hf : ∀ m ∈ l, ∀ order w, Explored next path order w →
      ∃ order', Settles next path order w [m] order' (f w m)) (hw : Explored next path order w) :
    ∃ order', Settles next path order w l order' (l.foldl f w) := by
  induction l generalizing order w with
  | nil => exact ⟨order, hw, by simp, fun _ h => h, fun _ h => h⟩
  | cons k l ih =>
    obtain ⟨hk, hl⟩ := forall_mem_cons.1 hf
    obtain ⟨order₁, h₁⟩ := hk order w hw
    obtain ⟨order₂, h₂⟩ := ih hl h₁.explored
    refine ⟨order₂, h₂.explored, forall_mem_cons.2 ⟨?_, h₂.settled⟩,
      fun m hm => h₂.order m (h₁.order m hm), fun m hm => h₂.heads m (h₁.heads m hm)⟩
    exact (h₁.settled k mem_cons_self).imp (h₂.heads k) (h₂.order k)

/-- What a walk along `path` does with a successor. -/
def visit (next : Nat → List Nat) (fuel : Nat) (path : List Nat) (w : Walk) (m : Nat) : Walk :=
  if path.contains m then { w with heads := w.heads.insert m }
  else if w.visited.contains m then w
  else walkFrom next fuel path m w

lemma walkFrom_succ (fuel n : Nat) :
    walkFrom next (fuel + 1) path n w =
      (next n).foldl (visit next fuel (n :: path)) { w with visited := w.visited.insert n } :=
  rfl

variable {m : Nat} {base : Graph} {functions : List FunctionDef}

lemma settles_visit (hw : Explored next path order w)
    (hwalk : m ∉ w.visited → ∃ order',
      Settles next path order w [m] order' (walkFrom next fuel path m w)) :
    ∃ order', Settles next path order w [m] order' (visit next fuel path w m) := by
  simp only [visit]
  split
  next hon =>
    refine ⟨order, hw.mark (contains_iff_mem.1 hon), ?_, fun _ h => h, fun k hk => ?_⟩
    · simp [mem_insert]
    · exact mem_insert.2 (.inr hk)
  next hoff =>
    split
    next hmet =>
      have hmet := (hw.visited m).1 (SortedSet.contains_iff.1 hmet)
      have hmem : m ∈ order := hmet.resolve_left fun h => hoff (contains_iff_mem.2 h)
      exact ⟨order, hw, by simp [hmem], fun _ h => h, fun _ h => h⟩
    next hnew => exact hwalk fun h => hnew (SortedSet.contains_iff.2 h)

lemma length_le_of_nodup (h : l.Nodup) (hlt : ∀ n ∈ l, n < size) : l.length ≤ size := by
  have hsub : l ⊆ List.range size := fun n hn => mem_range.2 (hlt n hn)
  simpa using (List.Nodup.subperm h hsub).length_le

/-- The walk from a new point settles it.  The points of the path differ, so the fuel lasts. -/
lemma settles_walkFrom (hnext : ∀ n, ∀ m ∈ next n, m < size) (hw : Explored next path order w)
    (hpath : ∀ m ∈ path, m < size) (hn : n < size) (hnew : n ∉ w.visited)
    (hfuel : size ≤ path.length + fuel) :
    ∃ order', Settles next path order w [n] order' (walkFrom next fuel path n w) := by
  have hpath' : ∀ m ∈ n :: path, m < size := forall_mem_cons.2 ⟨hn, hpath⟩
  induction fuel generalizing path n w order with
  | zero =>
    have := length_le_of_nodup (nodup_append.1 (hw.enter hnew).nodup).1 hpath'
    simp only [length_cons] at this
    omega
  | succ fuel ih =>
    have hvisit : ∀ m ∈ next n, ∀ order w, Explored next (n :: path) order w →
        ∃ order', Settles next (n :: path) order w [m] order'
        (visit next fuel (n :: path) w m) := by
      intro m hm order w hw
      have hm : m < size := hnext n m hm
      refine settles_visit hw fun hnew => ih hw hpath' hm hnew ?_ (forall_mem_cons.2 ⟨hm, hpath'⟩)
      simp only [length_cons]
      omega
    obtain ⟨order', h⟩ := settles_foldl hvisit (hw.enter hnew)
    rw [walkFrom_succ]
    exact ⟨n :: order', h.explored.leave h.settled, by simp,
      fun m hm => mem_cons_of_mem _ (h.order m hm), h.heads⟩

/-! ## Loop heads -/

variable {g : Graph}

lemma mem_successors : b ∈ g.successors a ↔ ∃ e ∈ g.edges.toList, e.src = a ∧ e.dst = b := by
  constructor
  · intro h
    obtain ⟨ie, hie, rfl⟩ := mem_map.1 h
    exact ⟨ie.2, mem_edges_of_edgesFrom hie, by simpa using (List.mem_filter.1 hie).2, rfl⟩
  · rintro ⟨e, he, rfl, rfl⟩
    obtain ⟨id, hid⟩ := mem_iff_getElem?.1 he
    exact mem_map.2 ⟨(id, e), mem_edgesFrom (by simpa using hid), rfl⟩

/-- Edges join points of the graph. -/
def EdgesWithin (g : Graph) : Prop := ∀ e ∈ g.edges.toList, e.src < g.nodes.size ∧
    e.dst < g.nodes.size

lemma Partitioned.edgesWithin (hg : g.Partitioned) : g.EdgesWithin := by
  intro e he
  obtain ⟨f, hsrc, hdst⟩ := hg.inside e he
  exact ⟨hsrc.lt, hdst.lt⟩

section

variable (hg : g.EdgesWithin)
include hg

lemma EdgesWithin.successor_lt (h : m ∈ g.successors n) : n < g.nodes.size ∧ m < g.nodes.size := by
  obtain ⟨e, he, rfl, rfl⟩ := mem_successors.1 h
  exact hg e he

/-- The table of successors that the searches use. -/
lemma EdgesWithin.table_eq :
    (fun n => ((List.range g.nodes.size).toArray.map g.successors).getD n []) = g.successors := by
  funext n
  by_cases hn : n < g.nodes.size
  · simp [Array.getD, hn]
  · have hnone : g.successors n = [] :=
      eq_nil_iff_forall_not_mem.2 fun m hm => hn (hg.successor_lt hm).1
    simp [Array.getD, hn, hnone]

lemma findHeads_eq (l : List Nat) :
    g.findHeads l = (l.foldl (visit g.successors g.nodes.size []) ⟨.empty, .empty⟩).heads := by
  rw [← hg.table_eq]
  rfl

lemma exists_order (hl : ∀ n ∈ l, n < g.nodes.size) : ∃ order, Finished
    g.successors (g.findHeads l) order ∧ order.Nodup ∧ (∀ n ∈ l, n ∈ order) ∧ ∀ n ∈ order, ∀ m ∈
    g.successors n, m ∈ order := by
  have hnext : ∀ n, ∀ m ∈ g.successors n, m < g.nodes.size := fun n m hm => (hg.successor_lt hm).2
  have hstart : Explored g.successors [] [] ⟨.empty, .empty⟩ := by
    refine ⟨fun n => by simp, fun n hn => ?_, fun _ _ h => absurd h (by simp), nodup_nil⟩
    exact absurd hn (not_mem_empty n)
  have hvisit : ∀ m ∈ l, ∀ order w, Explored g.successors [] order w →
      ∃ order', Settles g.successors [] order w [m] order'
      (visit g.successors g.nodes.size [] w m) :=
    fun m hm order w hw => settles_visit hw fun hnew =>
      settles_walkFrom hnext hw (by simp) (hl m hm) hnew (by simp)
  obtain ⟨order, h⟩ := settles_foldl hvisit hstart
  have hhead : ∀ m, m ∈ g.findHeads l → m ∈ order := by
    intro m hm
    rw [findHeads_eq hg] at hm
    simpa using (h.explored.visited m).1 (h.explored.heads m hm)
  refine ⟨order, findHeads_eq hg l ▸ h.explored.finished, by simpa using h.explored.nodup,
    fun n hn => ?_, fun n hn m hm => ?_⟩
  · exact (h.settled n hn).elim (findHeads_eq hg l ▸ hhead n) id
  · exact (h.explored.finished.successors hn m hm).elim (findHeads_eq hg l ▸ hhead m) id

end

/-- The point can be reached from the start of its function. -/
def Live (g : Graph) (n : Nat) : Prop :=
  ∃ name f, g.function? name = some f ∧
    Relation.ReflTransGen (fun a b => b ∈ g.successors a) f.entry n

lemma Partitioned.belongs_of_live (hg : g.Partitioned) (hn : g.Live n) :
    ∃ function, g.Belongs n function := by
  obtain ⟨name, f, hf, hpath⟩ := hn
  refine ⟨name, ?_⟩
  induction hpath with
  | refl => exact hg.entry name f hf
  | tail _ hstep ih =>
    obtain ⟨e, he, rfl, rfl⟩ := mem_successors.1 hstep
    exact hg.dst he ih

lemma mem_entries {name : String} {f : Function} (hf : g.function? name = some f) :
    f.entry ∈ g.entries := by
  rw [entries, mem_ofList]
  refine mem_map.2 ⟨f, mem_map.2 ⟨(name, f), SortedMap.get?_eq_some_iff.1 hf, rfl⟩, rfl⟩

lemma entries_lt {g' : Graph} (h : g.finish = .ok g') :
    ∀ n ∈ g'.entries.toList, n < g'.nodes.size := by
  unfold finish at h
  dsimp only at h
  split at h
  · cases h
  next hnone =>
    cases h
    intro n hn
    simpa using find?_eq_none.1 hnone n hn

lemma exists_head_of_loop (hg : g.EdgesWithin) (hentries : ∀ n ∈ g.entries.toList, n < g.nodes.size)
    (hlive : g.Live n) (hchain : List.IsChain (fun a b => b ∈ g.successors a) (n :: walk))
    (hback : n ∈ walk) : ∃ m ∈ walk, m ∈ g.findHeads g.entries.toList := by
  obtain ⟨order, hfinished, hnodup, hentry, hclosed⟩ := exists_order hg hentries
  have hn : n ∈ order := by
    obtain ⟨name, f, hf, hpath⟩ := hlive
    clear hchain hback
    induction hpath with
    | refl => exact hentry _ (mem_entries hf)
    | tail _ hstep ih => exact hclosed _ ih _ hstep
  exact hfinished.exists_head hnodup hn hchain hback

/-! ## Calls and returns -/

/-- The state at the first point is used for the state at the second. -/
inductive Influences (g : Graph) : Nat → Nat → Prop
  | step {e : Edge} (he : e ∈ g.edges.toList) : Influences g e.src e.dst
  | call {e : Edge} {target : Option LValue} {callee : String} {args : List Expr} {f : Function}
    (he : e ∈ g.edges.toList) (ha : e.action = .call target callee args)
    (hf : g.function? callee = some f) : Influences g e.src f.entry
  | ret {e : Edge} {target : Option LValue} {callee : String} {args : List Expr} {f : Function}
    (he : e ∈ g.edges.toList) (ha : e.action = .call target callee args)
    (hf : g.function? callee = some f) : Influences g f.exit e.dst

/-- What an edge lets one point have on another. -/
def influencesOf (g : Graph) (e : Edge) : List (Nat × Nat) :=
  (e.src, e.dst) ::
    match e.action with
    | .call _ callee _ =>
      (g.function? callee).toList.flatMap fun f => [(e.src, f.entry), (f.exit, e.dst)]
    | _ => []

lemma influences_iff : g.Influences a b ↔ ∃ e ∈ g.edges.toList, (a, b) ∈ g.influencesOf e := by
  constructor
  · rintro (⟨he⟩ | ⟨he, ha, hf⟩ | ⟨he, ha, hf⟩)
    · exact ⟨_, he, mem_cons_self⟩
    · exact ⟨_, he, by simp [influencesOf, ha, hf]⟩
    · exact ⟨_, he, by simp [influencesOf, ha, hf]⟩
  · rintro ⟨e, he, hmem⟩
    rcases mem_cons.1 hmem with heq | hmem
    · cases heq
      exact .step he
    · split at hmem
      next target callee args ha =>
        simp only [mem_flatMap, Option.mem_toList, mem_cons, not_mem_nil, or_false] at hmem
        obtain ⟨f, hf, heq | heq⟩ := hmem <;> cases heq
        exacts [.call he ha hf, .ret he ha hf]
      next => cases hmem

instance : DecidableRel g.Influences := fun _ _ => decidable_of_iff _ influences_iff.symm

def Calls (g : Graph) (caller callee : String) : Prop :=
  ∃ e ∈ g.edges.toList, ∃ target args, e.action = .call target callee args ∧ g.Belongs e.src caller

/-- The callees of the program, each with its caller. -/
def calls (g : Graph) : List (String × String) :=
  g.edges.toList.filterMap fun e =>
    match e.action, g.nodes[e.src]? with
    | .call _ callee _, some node => some (node.function, callee)
    | _, _ => none

lemma Calls.mem_calls {caller callee : String} (h : g.Calls caller callee) :
    (caller, callee) ∈ g.calls := by
  obtain ⟨e, he, target, args, ha, node, hnode, rfl⟩ := h
  exact mem_filterMap.2 ⟨e, he, by simp [ha, hnode]⟩

/-- A chain of influences that enters no function stays in its function, or it goes up to one of its
callers. -/
lemma Partitioned.stays_or_climbs (hg : g.Partitioned) {last : Nat} {function : String}
    (hn : g.Belongs n function) (hchain : List.IsChain g.Influences (n :: walk))
    (hlast : (n :: walk).getLast? = some last) (hentries : ∀ m ∈ walk, m ∉ g.entries) :
    List.IsChain (fun a b => b ∈ g.successors a) (n :: walk) ∧ g.Belongs last function ∨
      ∃ caller, g.Belongs last caller ∧ Relation.TransGen g.Calls caller function := by
  induction walk generalizing n function with
  | nil =>
    obtain rfl : n = last := by simpa using hlast
    exact .inl ⟨.singleton n, hn⟩
  | cons k walk ih =>
    obtain ⟨hk, hrest⟩ := isChain_cons_cons.1 hchain
    rw [getLast?_cons_cons] at hlast
    obtain ⟨hkentry, hafter⟩ := forall_mem_cons.1 hentries
    cases hk with
    | step he =>
      rcases ih (hg.dst he hn) hrest hlast hafter with ⟨hstays, hbelongs⟩ | hclimbs
      · exact .inl ⟨hstays.cons_cons (mem_successors.2 ⟨_, he, rfl, rfl⟩), hbelongs⟩
      · exact .inr hclimbs
    | call he ha hf => exact absurd (mem_entries hf) hkentry
    | @ret e target callee args f he ha hf =>
      obtain rfl := hn.unique (hg.exit _ f hf)
      obtain ⟨caller, hsrc, hdst⟩ := hg.inside e he
      have hcall : g.Calls caller function := ⟨e, he, target, args, ha, hsrc⟩
      rcases ih hdst hrest hlast hafter with ⟨-, hbelongs⟩ | ⟨above, hbelongs, hcalls⟩
      · exact .inr ⟨caller, hbelongs, .single hcall⟩
      · exact .inr ⟨above, hbelongs, hcalls.tail hcall⟩

lemma loops_ofFunctions (h : ofFunctions base functions = .ok g) :
    g.loops = ⟨g.findHeads g.entries.toList, g.entries, g.findCyclic⟩ := by
  obtain rfl := finish_eq h
  rfl

/-- In a program without recursion, every cycle of influences through a live point holds a widening
point. -/
theorem exists_isWideningPoint (hedges : base.edges = #[]) (hfunctions : base.functions = .empty)
    (hbuilt : ofFunctions base functions = .ok g)
    (hacyclic : ∀ function, ¬ Relation.TransGen g.Calls function function) (hlive : g.Live n)
    (hchain : List.IsChain g.Influences (n :: walk)) (hback : walk.getLast? = some n) :
    ∃ m ∈ walk, g.isWideningPoint m = true := by
  have hg : g.Partitioned := partitioned_ofFunctions hedges hfunctions hbuilt
  simp only [isWideningPoint, loops_ofFunctions hbuilt, Bool.or_eq_true, SortedSet.contains_iff]
  by_cases hentries : ∀ m ∈ walk, m ∉ g.entries
  · obtain ⟨function, hn⟩ := hg.belongs_of_live hlive
    have hlast : (n :: walk).getLast? = some n := by simp [getLast?_cons, hback]
    rcases hg.stays_or_climbs hn hchain hlast hentries with ⟨hloop, -⟩ | ⟨caller, hcaller, hcalls⟩
    · obtain ⟨m, hm, hhead⟩ := exists_head_of_loop hg.edgesWithin (entries_lt hbuilt) hlive hloop
        (mem_of_getLast? hback)
      exact ⟨m, hm, .inl hhead⟩
    · rw [hcaller.unique hn] at hcalls
      exact absurd hcalls (hacyclic function)
  · push Not at hentries
    obtain ⟨m, hm, hentry⟩ := hentries
    exact ⟨m, hm, .inr hentry⟩

/-- A loop that calls a function with a loop of its own. -/
def callInLoop : List FunctionDef := [
  ⟨"step", [], [], .block [.loop (.cmp .eq .unknown (.const 0)) .skip, .ret (some (.const 1))]⟩,
  ⟨"main", [], [⟨"x", .int⟩],
    .loop (.cmp .eq .unknown (.const 0)) (.act (.call (some (.var "x")) "step" []))⟩]

/-- In `callInLoop`, the cycle from the loop in `main` through the callee and back is cut. -/
theorem exists_isWideningPoint_callInLoop :
    ∃ g, ofFunctions {} callInLoop = .ok g ∧ (∀ f, ¬ Relation.TransGen g.Calls f f) ∧ g.Live 8 ∧
      List.IsChain g.Influences [8, 9, 0, 2, 4, 1, 11, 8] ∧
      ∃ m ∈ [9, 0, 2, 4, 1, 11, 8], g.isWideningPoint m = true := by
  obtain ⟨g, hg, hok⟩ := Fault.exists_of_any (x := ofFunctions {} callInLoop) (p := fun g =>
    g.calls == [("main", "step")] && (g.function? "main").any (·.entry == 6) &&
    decide (8 ∈ g.successors 6) &&
    decide (List.IsChain g.Influences [8, 9, 0, 2, 4, 1, 11, 8])) (by decide +kernel)
  simp only [Bool.and_eq_true, beq_iff_eq, Option.any_eq_true, decide_eq_true_eq] at hok
  obtain ⟨⟨⟨hcalls, f, hf, hentry⟩, hstep⟩, hchain⟩ := hok
  have hpair : ∀ {a b}, g.Calls a b → a = "main" ∧ b = "step" := by
    intro a b h
    simpa [hcalls] using h.mem_calls
  have hacyclic : ∀ f, ¬ Relation.TransGen g.Calls f f := by
    intro f hf
    obtain ⟨b, -, hlast⟩ := Relation.TransGen.tail'_iff.1 hf
    obtain ⟨c, hfirst, -⟩ := Relation.TransGen.head'_iff.1 hf
    have := (hpair hfirst).1.symm.trans (hpair hlast).2
    simp at this
  have hlive : g.Live 8 := ⟨"main", f, hf, .single (hentry ▸ hstep)⟩
  exact ⟨g, hg, hacyclic, hlive, hchain,
    exists_isWideningPoint rfl rfl hg hacyclic hlive hchain rfl⟩

/-- A function that may return one more than it returns when called again. -/
def addOnReturn : List FunctionDef := [
  ⟨"main", [], [⟨"x", .int⟩], .block [
    .act (.assign (.var "x") (.const 0)),
    .ite (.cmp .eq .unknown (.const 0)) (.act (.call (some (.var "x")) "main" [])) .skip,
    .ret (some (.arith .add (.read (.var "x")) (.const 1)))]⟩]

/-- Without a widening point, what `addOnReturn` returns influences what it returns. -/
theorem returning_uncut :
    ∃ g, ofFunctions {} addOnReturn = .ok g ∧ List.IsChain g.Influences [5, 6, 1, 5] ∧
      ∀ m ∈ [6, 1, 5], g.isWideningPoint m = false := by
  obtain ⟨g, hg, hok⟩ := Fault.exists_of_any (x := ofFunctions {} addOnReturn) (p := fun g =>
    decide (List.IsChain g.Influences [5, 6, 1, 5]) &&
    [6, 1, 5].all fun m => !g.isWideningPoint m) (by decide +kernel)
  simp only [Bool.and_eq_true, decide_eq_true_eq, all_eq_true, Bool.not_eq_true'] at hok
  exact ⟨g, hg, hok⟩

end Graph
end StaticAnalysis
