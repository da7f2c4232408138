import StaticAnalysis.Proofs.Program.Lowering

/-!
# Points and edges of lowered programs

Every point of a lowered program belongs to one function.  Edges stay within a function, and the
points where a function starts and ends are its own.  What the actions of the edges are like is
left open: `Stmt.Emits` says it of the statements, and lowering carries it over to the graph.
-/

namespace StaticAnalysis

open Array Draft Stmt

namespace Graph

def Belongs (g : Graph) (n : Nat) (function : String) : Prop :=
  ∃ node, g.nodes[n]? = some node ∧ node.function = function

instance (g : Graph) (n : Nat) (function : String) : Decidable (g.Belongs n function) :=
  decidable_of_iff ((g.nodes[n]?).any (fun node => node.function == function) = true)
    (by simp [Belongs, Option.any_eq_true])

/-- Edges stay within functions, and functions start and end at points of their own. -/
structure Partitioned (g : Graph) : Prop where
  inside : ∀ e ∈ g.edges.toList, ∃ function, g.Belongs e.src function ∧ g.Belongs e.dst function
  entry : ∀ name f, g.function? name = some f → g.Belongs f.entry name
  exit : ∀ name f, g.function? name = some f → g.Belongs f.exit name

variable {g : Graph}

lemma Belongs.functionOf {n : Nat} {function : String} (h : g.Belongs n function) :
    g.functionOf n = .ok function := by
  obtain ⟨node, hnode, rfl⟩ := h
  simp [Graph.functionOf, Graph.node, hnode]

lemma Belongs.unique {n : Nat} {function function' : String} (h : g.Belongs n function)
    (h' : g.Belongs n function') : function = function' := by
  have := h.functionOf.symm.trans h'.functionOf
  cases this
  rfl

lemma Belongs.lt {n : Nat} {function : String} (h : g.Belongs n function) : n < g.nodes.size := by
  obtain ⟨node, hnode, -⟩ := h
  by_contra hge
  rw [Array.getElem?_eq_none (by omega)] at hnode
  cases hnode

lemma Partitioned.dst (hg : g.Partitioned) {e : Edge} (he : e ∈ g.edges.toList) {function : String}
    (h : g.Belongs e.src function) : g.Belongs e.dst function := by
  obtain ⟨f, hsrc, hdst⟩ := hg.inside e he
  rwa [h.unique hsrc]

end Graph

/-! ## Lowering -/

/-- The edges that a statement becomes have actions as `ok` says. -/
def Stmt.Emits (ok : Action → Prop) : Stmt → Prop
  | .done | .skip => True
  | .seq s t => s.Emits ok ∧ t.Emits ok
  | .act a => ok a
  | .check c => ∀ id, ok (.check id c)
  | .ret e => ok (.ret e)
  | .ite c s t => ok (.guard c) ∧ ok (.guard c.negate) ∧ s.Emits ok ∧ t.Emits ok
  | .loop c body => ok (.guard c) ∧ ok (.guard c.negate) ∧ body.Emits ok

lemma Stmt.emits_true (s : Stmt) : s.Emits fun _ => True := by
  induction s with
  | done | skip | act | check | ret => simp [Emits]
  | seq s t hs ht => exact ⟨hs, ht⟩
  | ite c s t hs ht => exact ⟨trivial, trivial, hs, ht⟩
  | loop c body h => exact ⟨trivial, trivial, h⟩

lemma Stmt.Emits.action {ok : Action → Prop} {s : Stmt} (hs : s.Emits ok) (hskip : ok .skip)
    {exit k n start : Nat} {e : Edge} (he : e ∈ s.edges exit k n start) : ok e.action := by
  induction s generalizing k n start with
  | done | skip => cases he
  | act | ret =>
    obtain rfl := List.mem_singleton.1 he
    exact hs
  | check =>
    obtain rfl := List.mem_singleton.1 he
    exact hs k
  | seq s t ihs iht =>
    rcases List.mem_append.1 he with he | he
    exacts [ihs hs.1 he, iht hs.2 he]
  | ite c s t ihs iht =>
    obtain ⟨hpos, hneg, hs, ht⟩ := hs
    rcases mem_edges_ite.1 he with rfl | rfl | he | he | rfl | rfl
    exacts [hpos, hneg, ihs hs he, iht ht he, hskip, hskip]
  | loop c body ih =>
    obtain ⟨hpos, hneg, hs⟩ := hs
    rcases mem_edges_loop.1 he with rfl | rfl | rfl | he | rfl
    exacts [hskip, hpos, hneg, ih hs he, hskip]

namespace Draft

variable {ok : Action → Prop} {function : String} {g g' : Graph}

lemma Grows.belongs (h : Grows function g g') {n : Nat} {f : String} (hn : g.Belongs n f) :
    g'.Belongs n f := by
  obtain ⟨l, hl, -⟩ := h.nodes
  have hlt := hn.lt
  obtain ⟨node, hnode, hf⟩ := hn
  refine ⟨node, ?_, hf⟩
  rwa [← getElem?_toList, hl, List.getElem?_append_left (by simpa using hlt), getElem?_toList]

lemma Grows.belongs_new (h : Grows function g g') {n : Nat} (hge : g.nodes.size ≤ n)
    (hlt : n < g'.nodes.size) : g'.Belongs n function := by
  obtain ⟨l, hl, hown⟩ := h.nodes
  have hnode : g'.nodes[n]? = l[n - g.nodes.size]? := by
    rw [← getElem?_toList, hl, List.getElem?_append_right (by simpa using hge)]
    rfl
  rw [Array.getElem?_eq_getElem hlt] at hnode
  exact ⟨g'.nodes[n], Array.getElem?_eq_getElem hlt, hown _ (List.mem_of_getElem? hnode.symm)⟩

/-- What a new function adds to a graph: points and edges of its own, and itself. -/
structure AddsFunction (ok : Action → Prop) (f : FunctionDef) (g g' : Graph) : Prop where
  belongs : ∀ n f', g.Belongs n f' → g'.Belongs n f'
  edges : ∀ e ∈ g'.edges.toList, e ∈ g.edges.toList ∨ ok e.action ∧
    g'.Belongs e.src f.name ∧ g'.Belongs e.dst f.name
  functions : ∀ name f', g'.function? name = some f' → g.function? name = some f' ∨
    name = f.name ∧ f'.params = f.params ∧ f'.locals = f.locals ∧
      g'.Belongs f'.entry f.name ∧ g'.Belongs f'.exit f.name
  globals : g'.globals = g.globals

lemma addsFunction_addFunction {f : FunctionDef} (hf : f.body.Emits ok) (hskip : ok .skip)
    (d : Draft) : AddsFunction ok f d.graph (addFunction f d).2.graph := by
  obtain ⟨hedges, hsize, -, hgrows⟩ := makes_fillFunction f d
  have hnew : ∀ n, d.graph.nodes.size ≤ n → n < (addFunction f d).2.graph.nodes.size →
      (addFunction f d).2.graph.Belongs n f.name := fun _ => hgrows.belongs_new
  refine ⟨fun _ _ => hgrows.belongs, fun e he => ?_, fun name f' hf' => ?_, hgrows.globals⟩
  · rw [hedges, List.mem_append] at he
    refine he.imp_right fun he => ?_
    obtain ⟨hsrc, hdst⟩ := FunctionDef.mem_edges_bounds he
    refine ⟨?_, hnew _ hsrc.1 (by omega), hnew _ (by omega) (by omega)⟩
    rcases List.mem_append.1 he with he | he
    · exact hf.action hskip he
    · obtain rfl := List.mem_singleton.1 he
      exact hskip
  · refine (function?_addFunction hf').imp_right ?_
    rintro ⟨rfl, rfl⟩
    refine ⟨rfl, rfl, rfl, hnew _ (Nat.le_refl _) ?_, hnew _ (Nat.le_succ _) ?_⟩ <;>
    · dsimp only
      omega

end Draft

namespace Graph

lemma partitioned_addsFunction {ok : Action → Prop} {f : FunctionDef} {g g' : Graph}
    (h : Draft.AddsFunction ok f g g') (hg : g.Partitioned) : g'.Partitioned := by
  refine ⟨fun e he => ?_, fun name f' hf' => ?_, fun name f' hf' => ?_⟩
  · rcases h.edges e he with he | ⟨-, hsrc, hdst⟩
    · obtain ⟨f', hsrc, hdst⟩ := hg.inside e he
      exact ⟨f', h.belongs _ _ hsrc, h.belongs _ _ hdst⟩
    · exact ⟨f.name, hsrc, hdst⟩
  · rcases h.functions name f' hf' with hf' | ⟨rfl, -, -, hentry, -⟩
    exacts [h.belongs _ _ (hg.entry name f' hf'), hentry]
  · rcases h.functions name f' hf' with hf' | ⟨rfl, -, -, -, hexit⟩
    exacts [h.belongs _ _ (hg.exit name f' hf'), hexit]

lemma partitioned_of_isEmpty {g : Graph} (hedges : g.edges = #[])
    (hfunctions : g.functions = .empty) : g.Partitioned := by
  refine ⟨by simp [hedges], ?_, ?_⟩ <;> simp [function?, hfunctions]

lemma partitioned_ofFunctions {base g : Graph} (hedges : base.edges = #[])
    (hfunctions : base.functions = .empty) {functions : List FunctionDef}
    (h : ofFunctions base functions = .ok g) : g.Partitioned := by
  have hdraft : ((functions.forM Draft.addFunction) { graph := base }).2.graph.Partitioned :=
    Draft.forM_addFunction_induct
      (fun f _ d => partitioned_addsFunction
      (Draft.addsFunction_addFunction f.body.emits_true trivial d))
      (partitioned_of_isEmpty hedges hfunctions)
  obtain rfl := finish_eq h
  exact ⟨hdraft.inside, hdraft.entry, hdraft.exit⟩

end Graph
end StaticAnalysis
