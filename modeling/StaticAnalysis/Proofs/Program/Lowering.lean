import StaticAnalysis.Program.Lowering
import StaticAnalysis.Proofs.Order.Containers

/-!
# Points and edges of lowered functions

The edges that lowering makes are a function of the statement and of the numbers of its first point
and its first check (`Stmt.edges`, `Draft.makes_lower`).  A function begins with the points of its
entry and its exit, and its edges lead to the exit or to a later point, so nothing ever leads to the
entry of a function: a function is entered by calls only.
-/

namespace StaticAnalysis

open Draft Stmt List

/-! ## Edges of statements -/

namespace Stmt

def checkCount : Stmt → Nat
  | .done | .skip | .act _ | .ret _ => 0
  | .check _ => 1
  | .seq s t | .ite _ s t => s.checkCount + t.checkCount
  | .loop _ body => body.checkCount

def points : Stmt → Nat
  | .done | .skip => 0
  | .act _ | .check _ | .ret _ => 1
  | .seq s t => s.points + t.points
  | .ite _ s t => 2 + s.points + t.points + 1
  | .loop _ body => 3 + body.points

/-- The point behind a statement that starts at `start` and adds points from `n` on. -/
def after : Stmt → Nat → Nat → Nat
  | .done, _, start | .skip, _, start => start
  | .act _, n, _ | .check _, n, _ | .ret _, n, _ => n
  | .seq s t, n, start => t.after (n + s.points) (s.after n start)
  | .ite _ s t, n, _ => n + 2 + s.points + t.points
  | .loop _ _, n, _ => n + 2

/-- The edges of a statement of a function that ends at `exit`.  Its first check has number `k`, its
first point number `n`, and it starts at `start`. -/
def edges (exit : Nat) : Stmt → Nat → Nat → Nat → List Edge
  | .done, _, _, _ | .skip, _, _, _ => []
  | .act a, _, n, start => [⟨start, n, a⟩]
  | .check c, k, n, start => [⟨start, n, .check k c⟩]
  | .ret e, _, _, start => [⟨start, exit, .ret e⟩]
  | .seq s t, k, n, start =>
    s.edges exit k n start ++ t.edges exit (k + s.checkCount) (n + s.points) (s.after n start)
  | .ite c s t, k, n, start =>
    [⟨start, n, .guard c⟩, ⟨start, n + 1, .guard c.negate⟩] ++ s.edges exit k (n + 2) n ++
      t.edges exit (k + s.checkCount) (n + 2 + s.points) (n + 1) ++
      [⟨s.after (n + 2) n, n + 2 + s.points + t.points, .skip⟩,
        ⟨t.after (n + 2 + s.points) (n + 1), n + 2 + s.points + t.points, .skip⟩]
  | .loop c body, k, n, start =>
    [⟨start, n, .skip⟩, ⟨n, n + 1, .guard c⟩, ⟨n, n + 2, .guard c.negate⟩] ++
      body.edges exit k (n + 3) (n + 1) ++ [⟨body.after (n + 3) (n + 1), n, .skip⟩]

lemma after_mem (s : Stmt) (n start : Nat) :
    s.after n start = start ∨ n ≤ s.after n start ∧ s.after n start < n + s.points := by
  induction s generalizing n start with
  | done | skip => exact .inl rfl
  | act | check | ret => exact .inr ⟨Nat.le_refl n, Nat.lt_succ_self n⟩
  | seq s t hs ht =>
    have hs := hs n start
    have ht := ht (n + s.points) (s.after n start)
    simp only [after, points]
    omega
  | ite c s t => simp only [after, points]; omega
  | loop c body => simp only [after, points]; omega

section Edges

variable {exit k n start : Nat} {s t body : Stmt} {c : Cond} {e : Edge}

lemma mem_edges_ite : e ∈ (Stmt.ite c s t).edges exit k n start ↔
    e = ⟨start, n, .guard c⟩ ∨ e = ⟨start, n + 1, .guard c.negate⟩ ∨
      e ∈ s.edges exit k (n + 2) n ∨
      e ∈ t.edges exit (k + s.checkCount) (n + 2 + s.points) (n + 1) ∨
      e = ⟨s.after (n + 2) n, n + 2 + s.points + t.points, .skip⟩ ∨
      e = ⟨t.after (n + 2 + s.points) (n + 1), n + 2 + s.points + t.points, .skip⟩ := by
  simp [edges]

lemma mem_edges_loop : e ∈ (Stmt.loop c body).edges exit k n start ↔
    e = ⟨start, n, .skip⟩ ∨ e = ⟨n, n + 1, .guard c⟩ ∨ e = ⟨n, n + 2, .guard c.negate⟩ ∨
      e ∈ body.edges exit k (n + 3) (n + 1) ∨ e = ⟨body.after (n + 3) (n + 1), n, .skip⟩ := by
  simp [edges]

/-- Edges of a statement leave its start or one of its points, but never the point behind it, and
lead to one of its points or to the exit. -/
lemma mem_edges_bounds (hstart : start < n) (he : e ∈ s.edges exit k n start) :
    (e.src = start ∨ n ≤ e.src ∧ e.src < n + s.points) ∧ e.src ≠ s.after n start ∧
      (e.dst = exit ∨ n ≤ e.dst ∧ e.dst < n + s.points) := by
  induction s generalizing k n start with
  | done | skip => cases he
  | act | check | ret =>
    rw [edges, mem_singleton] at he
    subst he
    exact ⟨.inl rfl, Nat.ne_of_lt hstart, by simp [points]⟩
  | seq s t hs ht =>
    have hmid := s.after_mem n start
    have hlast := t.after_mem (n + s.points) (s.after n start)
    simp only [after, points]
    rcases mem_append.1 he with he | he
    · have := hs hstart he
      omega
    · have := ht (by omega) he
      omega
  | ite c s t hs ht =>
    have hthen := s.after_mem (n + 2) n
    have helse := t.after_mem (n + 2 + s.points) (n + 1)
    simp only [after, points]
    rcases mem_edges_ite.1 he with rfl | rfl | he | he | rfl | rfl
    case inr.inr.inl => have := hs (by omega) he; omega
    case inr.inr.inr.inl => have := ht (by omega) he; omega
    all_goals dsimp only; omega
  | loop c body h =>
    have hbody := body.after_mem (n + 3) (n + 1)
    simp only [after, points]
    rcases mem_edges_loop.1 he with rfl | rfl | rfl | he | rfl
    case inr.inr.inr.inl => have := h (by omega) he; omega
    all_goals dsimp only; omega

end Edges

end Stmt

/-! ## Lowering -/

namespace Draft

variable {α β : Type} {n k n' k' n'' k'' : Nat} {es es' : List Edge} {function : String}

/-- From `g` to `g'` only points of `function` were added, and edges. -/
structure Grows (function : String) (g g' : Graph) : Prop where
  nodes : ∃ l, g'.nodes.toList = g.nodes.toList ++ l ∧ ∀ node ∈ l, node.function = function
  functions : g'.functions = g.functions
  globals : g'.globals = g.globals

lemma Grows.of_nodes_eq {g g' : Graph} (hnodes : g'.nodes = g.nodes)
    (hfunctions : g'.functions = g.functions) (hglobals : g'.globals = g.globals) :
    Grows function g g' :=
  ⟨⟨[], by rw [hnodes, append_nil], by simp⟩, hfunctions, hglobals⟩

lemma Grows.trans {g g' g'' : Graph} (h : Grows function g g') (h' : Grows function g' g'') :
    Grows function g g'' := by
  obtain ⟨l, hl, hown⟩ := h.nodes
  obtain ⟨l', hl', hown'⟩ := h'.nodes
  refine ⟨⟨l ++ l', ?_, forall_mem_append.2 ⟨hown, hown'⟩⟩, h'.functions.trans h.functions,
    h'.globals.trans h.globals⟩
  rw [hl', hl, append_assoc]

lemma grows_addNode (g : Graph) (location : Option Location) :
    Grows function g (g.addNode function location) :=
  ⟨⟨[⟨function, location⟩], Array.toList_push, by simp⟩, rfl, rfl⟩

/-- From any draft with `n` points and `k` checks, building gives `a` and adds points of `function`
and the edges `es`, and then there are `n'` points and `k'` checks. -/
def Makes (function : String) (m : StateM Draft α) (n k : Nat) (a : α) (es : List Edge) (n' k' : Nat) :
    Prop :=
  ∀ d : Draft, d.graph.nodes.size = n → d.checks = k →
    (m d).1 = a ∧ (m d).2.graph.edges.toList = d.graph.edges.toList ++ es ∧
      (m d).2.graph.nodes.size = n' ∧ (m d).2.checks = k' ∧ Grows function d.graph (m d).2.graph

lemma makes_pure (a : α) : Makes function (pure a) n k a [] n k :=
  fun _ hn hk => ⟨rfl, (append_nil _).symm, hn, hk, .of_nodes_eq rfl rfl rfl⟩

variable {m : StateM Draft α} (f : FunctionDef) (d : Draft)

lemma Makes.bind {f : α → StateM Draft β} {a : α} {b : β}
    (hm : Makes function m n k a es n' k') (hf : Makes function (f a) n' k' b es' n'' k'') :
    Makes function (m >>= f) n k b (es ++ es') n'' k'' := by
  intro d hn hk
  obtain ⟨rfl, hes, hn', hk', hgrows⟩ := hm d hn hk
  obtain ⟨hb, hes', hn'', hk'', hgrows'⟩ := hf (m d).2 hn' hk'
  refine ⟨hb, ?_, hn'', hk'', hgrows.trans hgrows'⟩
  rw [← append_assoc, ← hes]
  exact hes'

lemma Makes.of_eq {a : α} (h : Makes function m n k a es n' k') (hes : es = es')
    (hn : n' = n'') (hk : k' = k'') : Makes function m n k a es' n'' k'' := by
  subst hes hn hk
  exact h

lemma makes_nextLine : Makes function nextLine n k () [] n k :=
  fun _ hn hk => ⟨rfl, (append_nil _).symm, hn, hk, .of_nodes_eq rfl rfl rfl⟩

lemma makes_nextCheck : Makes function nextCheck n k k [] n (k + 1) :=
  fun _ hn hk => ⟨hk, (append_nil _).symm, hn, congrArg (· + 1) hk, .of_nodes_eq rfl rfl rfl⟩

lemma makes_point : Makes function (point function) n k n [] (n + 1) k := by
  rintro d rfl hk
  exact ⟨rfl, (append_nil _).symm, Array.size_push _, hk, grows_addNode d.graph _⟩

lemma makes_connect (src dst : Nat) (a : Action) :
    Makes function (connect src dst a) n k () [⟨src, dst, a⟩] n k :=
  fun _ hn hk => ⟨rfl, Array.toList_push, hn, hk, .of_nodes_eq rfl rfl rfl⟩

lemma makes_step (src : Nat) (a : Action) :
    Makes function (step function src a) n k n [⟨src, n, a⟩] (n + 1) k :=
  makes_point.bind ((makes_connect src n a).bind (makes_pure n))

/-- Lowering adds the points, edges and checks of the statement and ends behind it. -/
lemma makes_lower (function : String) (exit : Nat) (s : Stmt) (start n k : Nat) :
    Makes function (lower function exit s start) n k (s.after n start) (s.edges exit k n start)
      (n + s.points) (k + s.checkCount) := by
  induction s generalizing start n k with
  | done => exact makes_pure start
  | skip => exact makes_nextLine.bind (makes_pure start)
  | act a => exact makes_nextLine.bind (makes_step start a)
  | check c => exact makes_nextLine.bind (makes_nextCheck.bind (makes_step start _))
  | ret e => exact makes_nextLine.bind ((makes_connect start exit _).bind makes_point)
  | seq s t hs ht =>
    rw [points, checkCount, ← Nat.add_assoc, ← Nat.add_assoc]
    exact (hs start n k).bind (ht _ _ _)
  | ite c s t hs ht =>
    refine Makes.of_eq (makes_nextLine.bind <| (makes_step start (.guard c)).bind <|
      (makes_step start (.guard c.negate)).bind <| (hs n (n + 2) k).bind <|
      (ht (n + 1) _ _).bind <| makes_point.bind <|
      (makes_connect (s.after (n + 2) n) _ .skip).bind <|
      (makes_connect (t.after (n + 2 + s.points) (n + 1)) _ .skip).bind (makes_pure _)) ?_ ?_ ?_
    · simp [edges]
    · simp [points]
      omega
    · simp [checkCount]
      omega
  | loop c body h =>
    refine Makes.of_eq (makes_nextLine.bind <| (makes_step start .skip).bind <|
      (makes_step n (.guard c)).bind <| (makes_step n (.guard c.negate)).bind <|
      (h (n + 1) (n + 3) k).bind <| (makes_connect (body.after (n + 3) (n + 1)) n .skip).bind
      (makes_pure (n + 2))) ?_ ?_ rfl
    · simp [edges]
    · simp [points]
      omega

/-- A draft with the points where a new function starts and ends. -/
def openFunction : Draft :=
  { d with
    line := d.line + 1
    graph := (d.graph.addNode f.name (some ⟨d.line + 1, 1⟩)).addNode f.name none }

/-- A draft with the points and edges of a new function. -/
def fillFunction : Draft :=
  let entry := d.graph.nodes.size
  ((lower f.name (entry + 1) f.body entry >>= fun last => connect last (entry + 1) .skip)
    (openFunction f d)).2

lemma addFunction_graph : (addFunction f d).2.graph = { (fillFunction f d).graph with
      functions := (fillFunction f d).graph.functions.insert f.name
        ⟨f.name, f.params, f.locals, d.graph.nodes.size, d.graph.nodes.size + 1⟩ } :=
  rfl

lemma forM_addFunction_induct {P : Graph → Prop} {functions : List FunctionDef}
    (hstep : ∀ f ∈ functions, ∀ d : Draft, P d.graph → P (addFunction f d).2.graph) {d : Draft}
    (hd : P d.graph) : P ((functions.forM addFunction) d).2.graph := by
  induction functions generalizing d with
  | nil => exact hd
  | cons f l ih =>
    obtain ⟨hf, hl⟩ := forall_mem_cons.1 hstep
    exact @ih hl (addFunction f d).2 (hf d hd)

end Draft

/-- The edges of a function whose first check has number `k` and that starts at point `n`. -/
def FunctionDef.edges (f : FunctionDef) (k n : Nat) : List Edge :=
  f.body.edges (n + 1) k (n + 2) n ++ [⟨f.body.after (n + 2) n, n + 1, .skip⟩]

lemma FunctionDef.mem_edges_bounds {f : FunctionDef} {k n : Nat} {e : Edge} (he : e ∈ f.edges k n) :
    (n ≤ e.src ∧ e.src < n + 2 + f.body.points) ∧ n < e.dst ∧ e.dst < n + 2 + f.body.points := by
  rcases mem_append.1 he with he | he
  · have := Stmt.mem_edges_bounds (by omega) he
    omega
  · obtain rfl := mem_singleton.1 he
    have := f.body.after_mem (n + 2) n
    dsimp only
    omega

namespace Draft

/-- Adding a function adds its points, edges and checks. -/
lemma makes_fillFunction (f : FunctionDef) (d : Draft) :
    (addFunction f d).2.graph.edges.toList =
        d.graph.edges.toList ++ f.edges d.checks d.graph.nodes.size ∧
      (addFunction f d).2.graph.nodes.size = d.graph.nodes.size + 2 + f.body.points ∧
      (addFunction f d).2.checks = d.checks + f.body.checkCount ∧
      Grows f.name d.graph (fillFunction f d).graph := by
  have hsize : (openFunction f d).graph.nodes.size = d.graph.nodes.size + 2 := by
    simp [openFunction, Graph.addNode]
  have hopen : Grows f.name d.graph (openFunction f d).graph :=
    (grows_addNode d.graph _).trans (grows_addNode _ none)
  have hlower := makes_lower f.name (d.graph.nodes.size + 1) f.body d.graph.nodes.size
    (d.graph.nodes.size + 2) d.checks
  obtain ⟨-, hedges, hsize, hchecks, hgrows⟩ :=
    hlower.bind (f := fun last => connect last (d.graph.nodes.size + 1) .skip)
      (makes_connect _ _ _) (openFunction f d) hsize rfl
  exact ⟨hedges, hsize, hchecks, hopen.trans hgrows⟩

lemma function?_addFunction {f : FunctionDef} {d : Draft} {name : String} {f' : Function}
    (h : (addFunction f d).2.graph.function? name = some f') :
    d.graph.function? name = some f' ∨ name = f.name ∧
      f' = ⟨f.name, f.params, f.locals, d.graph.nodes.size, d.graph.nodes.size + 1⟩ := by
  rw [addFunction_graph] at h
  change ((fillFunction f d).graph.functions.insert _ _).get? name = _ at h
  rw [SortedMap.get?_insert, (makes_fillFunction f d).2.2.2.functions] at h
  split at h
  next hname =>
    cases h
    exact .inr ⟨hname, rfl⟩
  next => exact .inl h

end Draft

namespace Graph

/-- Edges, starts and ends of functions are at points of the graph, nothing leads to where a
function starts, and no function ends there. -/
structure EntriesApart (g : Graph) : Prop where
  dst_lt : ∀ e ∈ g.edges, e.dst < g.nodes.size
  entry_lt : ∀ name f, g.function? name = some f → f.entry < g.nodes.size
  exit_lt : ∀ name f, g.function? name = some f → f.exit < g.nodes.size
  dst_ne : ∀ name f, g.function? name = some f → ∀ e ∈ g.edges, e.dst ≠ f.entry
  exit_ne : ∀ name f, g.function? name = some f → ∀ name' f', g.function? name' = some f' →
    f'.exit ≠ f.entry

/-- A new function keeps entries apart: its points are new, and its edges lead behind its entry. -/
lemma entriesApart_addFunction {d : Draft} (h : d.graph.EntriesApart) (f : FunctionDef) :
    (addFunction f d).2.graph.EntriesApart := by
  let n := d.graph.nodes.size
  obtain ⟨hedges, hsize, -, -⟩ := makes_fillFunction f d
  -- Every function is the new one or one from before, whose points are below `n`.
  have hfunction : ∀ name f', (addFunction f d).2.graph.function? name = some f' →
      (f'.entry = n ∧ f'.exit = n + 1) ∨ d.graph.function? name = some f' := by
    intro name f' hf'
    rcases function?_addFunction hf' with hf' | ⟨-, rfl⟩
    exacts [.inr hf', .inl ⟨rfl, rfl⟩]
  have hedge : ∀ e ∈ (addFunction f d).2.graph.edges,
      e ∈ d.graph.edges ∨ n < e.dst ∧ e.dst < (addFunction f d).2.graph.nodes.size := by
    intro e he
    rw [← Array.mem_toList_iff, hedges, mem_append, Array.mem_toList_iff] at he
    exact he.imp_right fun he => hsize ▸ (FunctionDef.mem_edges_bounds he).2
  refine ⟨fun e he => ?_, fun name f' hf' => ?_, fun name f' hf' => ?_,
    fun name f' hf' e he => ?_, fun name f' hf' name' f'' hf'' => ?_⟩
  · rcases hedge e he with he | he
    · have := h.dst_lt e he
      omega
    · omega
  · rcases hfunction name f' hf' with ⟨hentry, -⟩ | hf'
    · omega
    · have := h.entry_lt name f' hf'
      omega
  · rcases hfunction name f' hf' with ⟨-, hexit⟩ | hf'
    · omega
    · have := h.exit_lt name f' hf'
      omega
  · rcases hfunction name f' hf' with ⟨hentry, -⟩ | hf'
    · rcases hedge e he with he | he
      · have := h.dst_lt e he
        omega
      · omega
    · have := h.entry_lt name f' hf'
      rcases hedge e he with he | he
      · exact h.dst_ne name f' hf' e he
      · omega
  · rcases hfunction name f' hf' with ⟨hentry, -⟩ | hf' <;>
      rcases hfunction name' f'' hf'' with ⟨-, hexit⟩ | hf''
    · omega
    · have := h.exit_lt name' f'' hf''
      omega
    · have := h.entry_lt name f' hf'
      omega
    · exact h.exit_ne name f' hf' name' f'' hf''

def entries (g : Graph) : SortedSet Nat := .ofList (g.functions.values.map (·.entry))

lemma finish_eq {g g' : Graph} (h : g.finish = .ok g') :
    g' = { g with loops := ⟨g.findHeads g.entries.toList, g.entries, g.findCyclic⟩ } := by
  unfold finish at h
  dsimp only at h
  split at h
  · cases h
  · cases h
    rfl

lemma entriesApart_ofFunctions {base g : Graph} (hbase : base.EntriesApart)
    {functions : List FunctionDef} (h : ofFunctions base functions = .ok g) : g.EntriesApart := by
  have hfinal : ((functions.forM addFunction) { graph := base }).2.graph.EntriesApart :=
    forM_addFunction_induct (fun f _ _ hd => entriesApart_addFunction hd f) hbase
  obtain rfl := finish_eq h
  exact ⟨hfinal.dst_lt, hfinal.entry_lt, hfinal.exit_lt, hfinal.dst_ne, hfinal.exit_ne⟩

lemma entriesApart_of_isEmpty {g : Graph} (hedges : g.edges = #[])
    (hfunctions : g.functions = .empty) : g.EntriesApart := by
  refine ⟨by simp [hedges], ?_, ?_, ?_, ?_⟩ <;> simp [function?, hfunctions]

end Graph
end StaticAnalysis
