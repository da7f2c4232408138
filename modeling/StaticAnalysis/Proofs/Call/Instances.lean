import Mathlib.Data.Finite.Prod
import Mathlib.Data.Finset.Card
import Mathlib.Data.List.Perm.Subperm
import Mathlib.Data.Set.Finite.List
import Mathlib.Logic.Relation
import StaticAnalysis.Proofs.Program.Placement
import StaticAnalysis.Proofs.Program.Scalar
import StaticAnalysis.Transfer.Thread

/-!
# Instances of functions

The instances that a program is analysed in: a function with a context, from the entry points on
along calls and starts of threads.  A history of calls is bounded by the policy.  A thread nests its
creator, so threads are bounded only if no thread comes to start itself: then no edge occurs twice
among the creations that lead to a thread, and there are finitely many instances.
-/

namespace StaticAnalysis

open Bool ContextPolicy List

/-- The function that an action enters, in this thread or in a new one. -/
def Action.entered? : Action → Option String
  | .call _ callee _ => some callee
  | .spawn function _ => some function
  | _ => none

def Action.isSpawn : Action → Bool
  | .spawn _ _ => true
  | _ => false

/-- The edges that led from the main thread to this one, the last first. -/
def ThreadId.sites : ThreadId → List Nat
  | .main => []
  | .created parent site _ _ => site :: parent.sites

lemma ThreadId.length_sites (t : ThreadId) : t.sites.length = t.depth := by
  induction t with
  | main => rfl
  | created parent site function unique ih => simp [sites, depth, ih]

namespace Graph

def Enters (g : Graph) (function function' : String) : Prop :=
  ∃ e ∈ g.edges.toList, g.Belongs e.src function ∧ e.action.entered? = some function'

def spawnSites (g : Graph) : List Nat :=
  (g.numberedEdges.filter (·.2.action.isSpawn)).map Prod.fst

/-- The instances of functions that can be met, from the entry points on. -/
inductive Instance (g : Graph) (settings : Settings) : String → Context → Prop
  | entry {f : String} (hf : f ∈ settings.entryPoints) :
    Instance g settings f (settings.context.root .main f)
  | call {caller callee : String} {c c' : Context} {id : Nat} {e : Edge} {target : Option LValue}
    {args : List Expr} (h : Instance g settings caller c) (he : g.edges[id]? = some e)
    (hsrc : g.Belongs e.src caller) (ha : e.action = .call target callee args)
    (hc : settings.context.callee c id caller callee = .ok c') : Instance g settings callee c'
  | spawn {caller f : String} {c : Context} {id : Nat} {e : Edge} {arg : Option Expr}
    {thread : ThreadId} (h : Instance g settings caller c) (he : g.edges[id]? = some e)
    (hsrc : g.Belongs e.src caller) (ha : e.action = .spawn f arg)
    (ht : State.newThread
      { graph := g, settings, function := caller, thread := c.thread, edge := id,
        modular := c.isModular } f = .ok thread) :
    Instance g settings f (settings.context.root thread f)

/-- The functions that instances are of. -/
def names (g : Graph) (settings : Settings) : List String :=
  settings.entryPoints ++ g.edges.toList.filterMap (·.action.entered?)

variable {g : Graph} {settings : Settings} {function : String} {c : Context}

end Graph

/-! ## Histories -/

namespace ContextPolicy

/-- The histories that a policy keeps: bounded in length, over edges below `size` and the functions
`names`.  With gas, a chain grows by a function that is new on it or uses up gas. -/
inductive Keeps (size : Nat) (names : List String) : ContextPolicy → History → Prop
  | insensitive : Keeps size names .insensitive .insensitive
  | callString {n : Nat} {sites : List Nat} (hlength : sites.length ≤ n)
    (hsites : ∀ site ∈ sites, site < size) : Keeps size names (.callString n) (.callString sites)
  | callSite {n : Nat} {sites : List Nat} (hlength : sites.length ≤ n)
    (hsites : ∀ site ∈ sites, site < size) : Keeps size names (.callSite n) (.callSite sites)
  | gas {n left : Nat} {chain : List Frame}
    (hlength : chain.length + left ≤ n + (chain.map (·.function)).toFinset.card)
    (hchain : ∀ f ∈ chain, f.function ∈ names ∧ ∀ site ∈ f.site, site < size) :
    Keeps size names (.gas n) (.gas chain left)
  | exhausted {n : Nat} : Keeps size names (.gas n) .exhausted

variable {size : Nat} {names : List String} {p : ContextPolicy}

lemma keeps_root {thread : ThreadId} {function : String} (hf : function ∈ names) :
    Keeps size names p (p.root thread function).history := by
  cases p with
  | insensitive => exact .insensitive
  | callString n => exact .callString (Nat.zero_le n) (by simp)
  | callSite n => exact .callSite (Nat.zero_le n) (by simp)
  | gas n => exact .gas (by simp [Nat.add_comm]) (by simp [hf])

lemma length_lastSites_le (n : Nat) (sites : List Nat) : (lastSites n sites).length ≤ n := by
  simp only [lastSites, length_drop]
  omega

lemma lastSites_lt {n site : Nat} {sites : List Nat} (hsites : ∀ s ∈ sites, s < size)
    (hsite : site < size) : ∀ s ∈ lastSites n (sites ++ [site]), s < size := by
  intro s hs
  rcases mem_append.1 (mem_of_mem_drop hs) with hs | hs
  · exact hsites s hs
  · rwa [mem_singleton.1 hs]

lemma card_chain (chain : List Frame) (f : Frame) :
    ((chain ++ [f]).map (·.function)).toFinset.card = (chain.map (·.function)).toFinset.card +
      if f.function ∈ chain.map (·.function) then 0 else 1 := by
  have hinsert : ((chain ++ [f]).map (·.function)).toFinset =
      insert f.function (chain.map (·.function)).toFinset := by
    ext name
    simp
  rw [hinsert]
  split
  next hmem => rw [Finset.insert_eq_of_mem (mem_toFinset.2 hmem), Nat.add_zero]
  next hmem => rw [Finset.card_insert_of_notMem (fun h => hmem (mem_toFinset.1 h))]

/-- A call keeps the history within what the policy keeps, and the thread as it is. -/
lemma keeps_callee {c c' : Context} {site : Nat} {caller callee : String}
    (hc : Keeps size names p c.history) (hsite : site < size) (hcallee : callee ∈ names)
    (h : p.callee c site caller callee = .ok c') :
    Keeps size names p c'.history ∧ c'.thread = c.thread := by
  obtain ⟨thread, history⟩ := c
  cases hc with
  | insensitive =>
    cases h
    exact ⟨.insensitive, rfl⟩
  | callString hlength hsites =>
    cases h
    exact ⟨.callString (length_lastSites_le _ _) (lastSites_lt hsites hsite), rfl⟩
  | callSite hlength hsites =>
    simp only [ContextPolicy.callee] at h
    split at h <;> cases h
    · exact ⟨.callSite hlength hsites, rfl⟩
    · exact ⟨.callSite (length_lastSites_le _ _) (lastSites_lt hsites hsite), rfl⟩
  | @gas n left chain hlength hchain =>
    have hframes : ∀ f ∈ chain ++ [⟨some site, callee⟩],
        f.function ∈ names ∧ ∀ site ∈ f.site, site < size := by
      refine forall_mem_append.2 ⟨hchain, ?_⟩
      simpa using ⟨hcallee, hsite⟩
    have hcard := card_chain chain ⟨some site, callee⟩
    have hlength' : (chain ++ [(⟨some site, callee⟩ : Frame)]).length = chain.length + 1 := by simp
    simp only [ContextPolicy.callee] at h
    by_cases hmem : callee ∈ chain.map (·.function)
    · have hreentry : (chain.any fun f => f.function == callee) = true := by simpa using hmem
      simp only [hreentry, Bool.true_and, if_true] at h
      split at h
      · cases h
      next hleft =>
        have hleft : left ≠ 0 := by simpa using hleft
        rw [if_pos hmem] at hcard
        split at h <;> cases h
        · exact ⟨.exhausted, rfl⟩
        · exact ⟨.gas (by omega) hframes, rfl⟩
    · have hreentry : (chain.any fun f => f.function == callee) = false := by simpa using hmem
      simp only [hreentry, Bool.false_and, false_eq_true, if_false] at h
      rw [if_neg hmem] at hcard
      split at h <;> cases h
      · exact ⟨.exhausted, rfl⟩
      · exact ⟨.gas (by omega) hframes, rfl⟩
  | exhausted =>
    cases h
    exact ⟨.exhausted, rfl⟩

lemma finite_lists {α : Type} {s : Set α} (hs : s.Finite) (n : Nat) :
    {l : List α | l.length ≤ n ∧ ∀ a ∈ l, a ∈ s}.Finite := by
  have : Finite s := hs
  refine ((finite_length_le s n).image (List.map Subtype.val)).subset ?_
  rintro l ⟨hlength, hmem⟩
  lift l to List s using hmem
  exact ⟨l, by simpa using hlength, rfl⟩

lemma finite_frames (size : Nat) (names : List String) :
    {f : Frame | f.function ∈ names ∧ ∀ site ∈ f.site, site < size}.Finite := by
  have hsites : (insert none (some '' {site | site < size})).Finite :=
    ((Set.finite_lt_nat size).image some).insert none
  refine ((hsites.prod names.finite_toSet).image fun p => ⟨p.1, p.2⟩).subset ?_
  rintro ⟨site, function⟩ ⟨hfunction, hsite⟩
  refine ⟨(site, function), ⟨?_, hfunction⟩, rfl⟩
  cases site with
  | none => exact Set.mem_insert _ _
  | some site => exact Set.mem_insert_of_mem _ ⟨site, hsite site rfl, rfl⟩

lemma finite_keeps (size : Nat) (names : List String) (p : ContextPolicy) :
    {h | Keeps size names p h}.Finite := by
  cases p with
  | insensitive =>
    refine (Set.finite_singleton .insensitive).subset ?_
    rintro _ ⟨⟩
    rfl
  | callString n =>
    refine ((finite_lists (Set.finite_lt_nat size) n).image .callString).subset ?_
    rintro _ (_ | ⟨hlength, hsites⟩)
    exact ⟨_, ⟨hlength, hsites⟩, rfl⟩
  | callSite n =>
    refine ((finite_lists (Set.finite_lt_nat size) n).image .callSite).subset ?_
    rintro _ (_ | _ | ⟨hlength, hsites⟩)
    exact ⟨_, ⟨hlength, hsites⟩, rfl⟩
  | gas n =>
    let bound := n + names.toFinset.card
    have hgas := (finite_lists (finite_frames size names) bound).prod (Set.finite_le_nat bound)
    refine ((hgas.image fun q => .gas q.1 q.2).insert .exhausted).subset ?_
    intro h hh
    cases hh with
    | @gas _ left chain hlength hchain =>
      have hcard : (chain.map (·.function)).toFinset.card ≤ names.toFinset.card := by
        refine Finset.card_le_card fun name hname => ?_
        obtain ⟨f, hf, rfl⟩ := mem_map.1 (mem_toFinset.1 hname)
        exact mem_toFinset.2 (hchain f hf).1
      refine Set.mem_insert_of_mem _ ⟨(chain, left), ⟨⟨?_, hchain⟩, ?_⟩, rfl⟩
      · change chain.length ≤ bound
        omega
      · change left ≤ bound
        omega
    | exhausted => exact Set.mem_insert _ _

end ContextPolicy

/-! ## Threads -/

namespace ThreadId

/-- The thread is created by edges below `size` and runs one of the functions `names`, and so do the
threads it descends from. -/
def Over (size : Nat) (names : List String) : ThreadId → Prop
  | .main => True
  | .created parent site function _ => parent.Over size names ∧ site < size ∧ function ∈ names

lemma finite_over (size : Nat) (names : List String) (n : Nat) :
    {t : ThreadId | t.Over size names ∧ t.depth ≤ n}.Finite := by
  induction n with
  | zero =>
    refine (Set.finite_singleton .main).subset ?_
    rintro (_ | _) ⟨-, hdepth⟩
    · rfl
    · cases hdepth
  | succ n ih =>
    have huniq : (Set.univ : Set Bool).Finite := Set.finite_univ
    have hlabel := (Set.finite_lt_nat size).prod (names.finite_toSet.prod huniq)
    refine (((ih.prod hlabel).image fun p => .created p.1 p.2.1 p.2.2.1 p.2.2.2).insert
      .main).subset ?_
    rintro (_ | ⟨parent, site, function, unique⟩) ⟨hover, hdepth⟩
    · exact Set.mem_insert _ _
    · obtain ⟨hparent, hsite, hfunction⟩ := hover
      refine Set.mem_insert_of_mem _ ⟨(parent, site, function, unique), ⟨⟨hparent, ?_⟩, ?_⟩, rfl⟩
      · exact Nat.le_of_succ_le_succ hdepth
      · exact ⟨hsite, hfunction, trivial⟩

end ThreadId

lemma State.exists_newThread (env : Env) {e : Edge} (he : env.graph.edges[env.edge]? = some e)
    (function : String) : ∃ unique,
      newThread env function = .ok (.created env.thread env.edge function unique) := by
  simp only [newThread, Graph.edge, he]
  exact ⟨_, rfl⟩

namespace Graph

variable {g : Graph} {settings : Settings} {function : String} {c : Context}

/-- The function is entered in a run of the program. -/
def Entered (g : Graph) (settings : Settings) (function : String) : Prop :=
  ∃ root ∈ settings.entryPoints, Relation.ReflTransGen g.Enters root function

/-- A thread can come to run a function that starts it. -/
def StartsAgain (g : Graph) (settings : Settings) : Prop :=
  ∃ e ∈ g.edges.toList, ∃ caller f arg, g.Belongs e.src caller ∧ e.action = .spawn f arg ∧
    g.Entered settings caller ∧ Relation.ReflTransGen g.Enters f caller

/-- Functions can be ranked so that calls do not lead down and starts of threads lead up. -/
def isRankedBy (g : Graph) (rank : String → Nat) : Bool :=
  g.edges.toList.all fun e =>
    match g.nodes[e.src]?, e.action.entered? with
    | some node, some f =>
      decide (rank node.function ≤ rank f) &&
        (!e.action.isSpawn || decide (rank node.function < rank f))
    | _, _ => true

lemma not_startsAgain_of_isRankedBy {rank : String → Nat} (h : g.isRankedBy rank) :
    ¬ g.StartsAgain settings := by
  have hedge : ∀ e ∈ g.edges.toList, ∀ caller f, g.Belongs e.src caller →
      e.action.entered? = some f →
      rank caller ≤ rank f ∧ (e.action.isSpawn = true → rank caller < rank f) := by
    rintro e he caller f ⟨node, hnode, rfl⟩ hf
    have := all_eq_true.1 h e he
    rw [hnode, hf] at this
    simp only [and_eq_true, decide_eq_true_eq, or_eq_true, not_eq_true'] at this
    exact ⟨this.1, fun hspawn => this.2.resolve_left (by simp [hspawn])⟩
  rintro ⟨e, he, caller, f, arg, hsrc, ha, -, hpath⟩
  have hback : rank f ≤ rank caller := by
    clear ha hsrc
    induction hpath with
    | refl => exact Nat.le_refl _
    | tail _ hstep ih =>
      obtain ⟨e, he, hsrc, hf⟩ := hstep
      exact Nat.le_trans ih (hedge e he _ _ hsrc hf).1
  have hentered : e.action.entered? = some f := by simp [ha, Action.entered?]
  have hup : rank caller < rank f := (hedge e he caller f hsrc hentered).2
    (by simp [ha, Action.isSpawn])
  omega

/-- The thread that an edge starts can come to run the function. -/
def LeadsTo (g : Graph) (id : Nat) (function : String) : Prop :=
  ∃ e f arg, g.edges[id]? = some e ∧ e.action = .spawn f arg ∧
    Relation.ReflTransGen g.Enters f function

/-- What is kept from instance to instance: the context is over the edges and functions of the
program, its history within what the policy keeps, and the edges that led to its thread differ. -/
structure Tame (g : Graph) (settings : Settings) (function : String) (c : Context) : Prop where
  name : function ∈ g.names settings
  entered : g.Entered settings function
  history : ContextPolicy.Keeps g.edges.size (g.names settings) settings.context c.history
  thread : c.thread.Over g.edges.size (g.names settings)
  nodup : c.thread.sites.Nodup
  leads : ∀ id ∈ c.thread.sites, g.LeadsTo id function

section Enters

variable {caller f : String} {id : Nat} {e : Edge} (h : g.Tame settings caller c)
  (he : g.edges[id]? = some e) (hsrc : g.Belongs e.src caller)
include h he hsrc

lemma Tame.enters (hf : e.action.entered? = some f) : e ∈ g.edges.toList ∧ id < g.edges.size ∧
    f ∈ g.names settings ∧ g.Entered settings f ∧ ∀ id ∈ c.thread.sites, g.LeadsTo id f := by
  have hmem : e ∈ g.edges.toList := mem_of_getElem? (by simpa using he)
  have hedge : g.Enters caller f := ⟨e, hmem, hsrc, hf⟩
  obtain ⟨root, hroot, hpath⟩ := h.entered
  refine ⟨hmem, (Array.getElem?_eq_some_iff.1 he).1,
    mem_append_right _ (mem_filterMap.2 ⟨e, hmem, hf⟩),
    ⟨root, hroot, hpath.tail hedge⟩, fun id hid => ?_⟩
  obtain ⟨e, f, arg, he, ha, hpath⟩ := h.leads id hid
  exact ⟨e, f, arg, he, ha, hpath.tail hedge⟩

lemma Tame.call {c' : Context} {target : Option LValue} {args : List Expr}
    (ha : e.action = .call target f args) (hc : settings.context.callee c id caller f = .ok c') :
    g.Tame settings f c' := by
  obtain ⟨-, hid, hname, hentered, hleads⟩ := h.enters he hsrc (by rw [ha]; rfl)
  obtain ⟨hhistory, hthread⟩ := keeps_callee h.history hid hname hc
  exact ⟨hname, hentered, hhistory, hthread ▸ h.thread, hthread ▸ h.nodup, hthread ▸ hleads⟩

/-- The edge that starts a thread did not lead to its creator, as the thread would start itself. -/
lemma Tame.spawn (hagain : ¬ g.StartsAgain settings) {arg : Option Expr} {unique : Bool}
    (ha : e.action = .spawn f arg) :
    g.Tame settings f (settings.context.root (.created c.thread id f unique) f) := by
  obtain ⟨hmem, hid, hname, hentered, hleads⟩ := h.enters he hsrc (by rw [ha]; rfl)
  have hnew : id ∉ c.thread.sites := by
    intro hold
    obtain ⟨e', f', arg', he', ha', hpath⟩ := h.leads id hold
    obtain rfl : e = e' := Option.some.inj (he.symm.trans he')
    cases ha.symm.trans ha'
    exact hagain ⟨e, hmem, caller, f, arg, hsrc, ha, h.entered, hpath⟩
  exact ⟨hname, hentered, keeps_root hname, ⟨h.thread, hid, hname⟩, nodup_cons.2 ⟨hnew, h.nodup⟩,
    forall_mem_cons.2 ⟨⟨e, f, arg, he, ha, .refl⟩, hleads⟩⟩

end Enters

lemma Instance.tame (hagain : ¬ g.StartsAgain settings) (h : g.Instance settings function c) :
    g.Tame settings function c := by
  induction h with
  | @entry f hf =>
    have hname : f ∈ g.names settings := mem_append_left _ hf
    exact ⟨hname, ⟨f, hf, .refl⟩, keeps_root hname, trivial, nodup_nil, by
      simp [ContextPolicy.root, ThreadId.sites]⟩
  | call _ he hsrc ha hc ih => exact ih.call he hsrc ha hc
  | spawn _ he hsrc ha ht ih =>
    obtain ⟨_, -, hthread⟩ := Fault.bind_eq_ok.1 ht
    cases hthread
    exact ih.spawn he hsrc hagain ha

lemma Tame.depth_le (h : g.Tame settings function c) : c.thread.depth ≤ g.spawnSites.length := by
  rw [← ThreadId.length_sites]
  refine (h.nodup.subperm fun id hid => ?_).length_le
  obtain ⟨e, f, arg, he, ha, -⟩ := h.leads id hid
  refine mem_map.2 ⟨(id, e), mem_filter.2 ⟨mem_numberedEdges he, ?_⟩, rfl⟩
  simp [ha, Action.isSpawn]

/-- If no thread comes to start itself, there are finitely many instances, and no thread is nested
deeper than there are edges that start threads. -/
theorem finite_instances (hagain : ¬ g.StartsAgain settings) :
    {i : String × Context | g.Instance settings i.1 i.2}.Finite ∧
      ∀ function c, g.Instance settings function c → c.thread.depth ≤ g.spawnSites.length := by
  refine ⟨?_, fun function c h => (h.tame hagain).depth_le⟩
  have hthreads := ThreadId.finite_over g.edges.size (g.names settings) g.spawnSites.length
  have hhistories :=
    finite_keeps g.edges.size (g.names settings) settings.context
  refine (((g.names settings).finite_toSet.prod (hthreads.prod hhistories)).image
    fun p => (p.1, ⟨p.2.1, p.2.2⟩)).subset ?_
  rintro ⟨function, c⟩ h
  have htame := Instance.tame hagain h
  exact ⟨(function, c.thread, c.history),
    ⟨htame.name, ⟨htame.thread, htame.depth_le⟩, htame.history⟩, rfl⟩

/-- A thread that starts threads, which may call themselves. -/
def nestedThreads : List FunctionDef := [
  ⟨"main", [], [], .act (.spawn "outer" none)⟩,
  ⟨"outer", [], [], .loop (.cmp .eq .unknown (.const 0)) (.act (.spawn "inner" none))⟩,
  ⟨"inner", [], [], .ite (.cmp .eq .unknown (.const 0)) (.act (.call none "inner" [])) .skip⟩]

/-- The instances of `nestedThreads`. -/
theorem finite_instances_nestedThreads :
    ∃ g, ofFunctions {} nestedThreads = .ok g ∧ ¬ g.StartsAgain {} ∧
      {i : String × Context | g.Instance {} i.1 i.2}.Finite ∧
      ∀ function c, g.Instance {} function c → c.thread.depth ≤ 2 := by
  obtain ⟨g, hg, hok⟩ := Fault.exists_of_any (x := ofFunctions {} nestedThreads) (p := fun g =>
    g.isRankedBy (["main", "outer", "inner"].idxOf ·) && g.spawnSites.length == 2)
      (by decide +kernel)
  rw [and_eq_true, beq_iff_eq] at hok
  have hagain : ¬ g.StartsAgain {} := not_startsAgain_of_isRankedBy hok.1
  obtain ⟨hfinite, hdepth⟩ := finite_instances hagain
  exact ⟨g, hg, hagain, hfinite, hok.2 ▸ hdepth⟩

def spawnsItself : List FunctionDef := [⟨"main", [], [], .act (.spawn "main" none)⟩]

/-- The one edge of `spawnsItself` that starts a thread nests threads without bound. -/
theorem nests_spawnsItself :
    ∃ g, ofFunctions {} spawnsItself = .ok g ∧ g.spawnSites.length = 1 ∧
      ∀ n, ∃ c, g.Instance {} "main" c ∧ c.thread.depth = n := by
  obtain ⟨g, hg, hok⟩ := Fault.exists_of_any (x := ofFunctions {} spawnsItself) (p := fun g =>
    g.spawnSites.length == 1 &&
    g.edges[0]? == some ⟨0, 2, .spawn "main" none⟩ && (g.nodes[0]?).any
      (·.function == "main")) (by decide +kernel)
  simp only [and_eq_true, beq_iff_eq, Option.any_eq_true] at hok
  obtain ⟨⟨hsites, hedge⟩, node, hnode, hmain⟩ := hok
  refine ⟨g, hg, hsites, fun n => ?_⟩
  induction n with
  | zero => exact ⟨_, .entry List.mem_cons_self, rfl⟩
  | succ n ih =>
    obtain ⟨c, hc, hdepth⟩ := ih
    obtain ⟨unique, ht⟩ := State.exists_newThread ⟨g, {}, "main", c.thread, 0,
      c.isModular⟩ hedge "main"
    refine ⟨_, .spawn hc hedge ⟨node, hnode, hmain⟩ rfl ht, ?_⟩
    simp [ContextPolicy.root, ThreadId.depth, hdepth]

end Graph
end StaticAnalysis
