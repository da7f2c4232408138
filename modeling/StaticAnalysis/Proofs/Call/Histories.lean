import Mathlib.Data.List.DropRight
import StaticAnalysis.Proofs.Call.Instances

/-!
# Histories of chains of calls

What a context remembers of a chain of calls, in closed form: `historyOf` reads the history off the
whole chain, while `callee` only ever sees the history so far and the next call.  The step lemma is
`callee_historyOf`.

From the closed form follows that a program has finitely many histories, and that chains without
recursion are told apart as far as the policy looks back.
-/

namespace StaticAnalysis

open ContextPolicy Fault List

/-- One call of a chain: the edge it is made at, the function that makes it and the function that it
enters. -/
structure CallLink where
  site : Nat
  caller : String
  callee : String
deriving DecidableEq, Repr

namespace CallLink

/-- Every call is made by the function that the call before it entered, the first one by `root`. -/
def Linked : String → List CallLink → Prop
  | _, [] => True
  | root, l :: chain => l.caller = root ∧ Linked l.callee chain

/-- The sites of a chain without the repeated ones: a function that calls itself where the site kept
last is the same adds nothing. -/
def collapsed : Option Nat → List CallLink → List Nat
  | _, [] => []
  | last, l :: chain =>
    if l.caller = l.callee ∧ last = some l.site then collapsed last chain
    else l.site :: collapsed (some l.site) chain

/-- How many calls of a chain enter a function that is already on it; the functions `seen` are. -/
def reentries : List String → List CallLink → Nat
  | _, [] => 0
  | seen, l :: chain => (if l.callee ∈ seen then 1 else 0) + reentries (l.callee :: seen) chain

/-- The functions on a chain, each with the site that it was called from. -/
def frames (root : String) (chain : List CallLink) : List Frame :=
  ⟨none, root⟩ :: chain.map fun l => ⟨some l.site, l.callee⟩

/-- One more call is dropped if it repeats the site kept last, which is `last` as long as no site of
the chain is kept. -/
lemma collapsed_concat (last : Option Nat) (chain : List CallLink) (l : CallLink) :
    collapsed last (chain ++ [l]) =
      if l.caller = l.callee ∧ (collapsed last chain).getLast?.or last = some l.site then
        collapsed last chain
      else collapsed last chain ++ [l.site] := by
  induction chain generalizing last with
  | nil => rfl
  | cons c chain ih =>
    simp only [cons_append, collapsed]
    split
    · exact ih last
    · rw [ih, getLast?_cons]
      cases (collapsed (some c.site) chain).getLast? <;> simp <;> split <;> rfl

lemma reentries_concat (seen : List String) (chain : List CallLink) (l : CallLink) :
    reentries seen (chain ++ [l]) =
      reentries seen chain + if l.callee ∈ seen ∨ l.callee ∈ chain.map callee then 1 else 0 := by
  induction chain generalizing seen with
  | nil => simp [reentries]
  | cons c chain ih =>
    have hmem : l.callee ∈ c.callee :: seen ∨ l.callee ∈ chain.map callee ↔
        l.callee ∈ seen ∨ l.callee ∈ (c :: chain).map callee := by
      simp only [map_cons, mem_cons]
      tauto
    simp only [cons_append, reentries, ih, hmem]
    omega

lemma any_frames (root callee : String) (chain : List CallLink) :
    ((frames root chain).any fun f => f.function == callee) =
      decide (callee ∈ [root] ∨ callee ∈ chain.map CallLink.callee) := by
  rw [Bool.eq_iff_iff, decide_eq_true_iff]
  simp [frames, eq_comm (a := callee)]

lemma frames_concat (root : String) (chain : List CallLink) (l : CallLink) :
    frames root (chain ++ [l]) = frames root chain ++ [⟨some l.site, l.callee⟩] := by
  simp [frames]

/-! ## Chains without recursion -/

variable {root : String} {chain : List CallLink}

lemma collapsed_of_nodup (last : Option Nat) (hlinked : Linked root chain)
    (hnodup : (root :: chain.map callee).Nodup) : collapsed last chain = chain.map site := by
  induction chain generalizing root last with
  | nil => rfl
  | cons l chain ih =>
    obtain ⟨rfl, hlinked⟩ := hlinked
    rw [map_cons, nodup_cons, mem_cons, not_or] at hnodup
    obtain ⟨⟨hne, -⟩, hnodup⟩ := hnodup
    rw [collapsed, if_neg (fun h => hne h.1), ih _ hlinked hnodup, map_cons]

lemma reentries_of_nodup {seen : List String} (hnodup : (seen ++ chain.map callee).Nodup) :
    reentries seen chain = 0 := by
  induction chain generalizing seen with
  | nil => rfl
  | cons l chain ih =>
    have hnodup := nodup_middle.1 hnodup
    rw [reentries, if_neg fun hmem => (nodup_cons.1 hnodup).1 (mem_append_left _ hmem), ih hnodup]

end CallLink

namespace ContextPolicy

/-- The context after a chain of calls. -/
def follow (p : ContextPolicy) (c : Context) (chain : List CallLink) : Except Fault Context :=
  chain.foldlM (fun c l => p.callee c l.site l.caller l.callee) c

/-- What a policy keeps of a chain of calls from `root`. -/
def historyOf (p : ContextPolicy) (root : String) (chain : List CallLink) : History :=
  match p with
  | .insensitive => .insensitive
  | .callString n => .callString ((chain.map (·.site)).rtake n)
  | .callSite n => .callSite ((CallLink.collapsed none chain).rtake n)
  | .gas n =>
    let spent := CallLink.reentries [root] chain
    if spent < n then .gas (CallLink.frames root chain) (n - spent) else .exhausted

/-- The policy looks back over all calls of a chain of this length on which no function recurs. -/
def Spans : ContextPolicy → Nat → Prop
  | .insensitive, _ => False
  | .callString n, length | .callSite n, length => length ≤ n
  | .gas _, _ => True

/-! ## One more call -/

lemma lastSites_eq_rtake (n : Nat) (sites : List Nat) : lastSites n sites = sites.rtake n := rfl

lemma rtake_rtake_concat (n : Nat) (sites : List Nat) (site : Nat) :
    (sites.rtake n ++ [site]).rtake n = (sites ++ [site]).rtake n := by
  cases n with
  | zero => simp
  | succ n => simp [rtake_eq_reverse_take_reverse, take_take]

lemma callee_callSite (thread : ThreadId) (n : Nat) (chain : List CallLink) (l : CallLink) :
    (callSite n).callee ⟨thread, .callSite ((CallLink.collapsed none chain).rtake n)⟩ l.site
        l.caller l.callee =
      .ok ⟨thread, .callSite ((CallLink.collapsed none (chain ++ [l])).rtake n)⟩ := by
  simp only [callee, lastSites_eq_rtake, rtake_rtake_concat, CallLink.collapsed_concat,
    Option.or_none]
  by_cases hn : n = 0
  · subst hn
    simp only [rtake_zero]
    split <;> rfl
  · simp only [rtake_eq_reverse_take_reverse, getLast?_reverse, head?_take, hn, if_false,
      head?_reverse]
    split <;> rfl

lemma callee_gas (thread : ThreadId) (n : Nat) (root : String) (chain : List CallLink)
    (l : CallLink) :
    (gas n).callee ⟨thread, (gas n).historyOf root chain⟩ l.site l.caller l.callee =
      .ok ⟨thread, (gas n).historyOf root (chain ++ [l])⟩ := by
  have hconcat := CallLink.reentries_concat [root] chain l
  simp only [historyOf]
  by_cases hspent : CallLink.reentries [root] chain < n
  · rw [if_pos hspent]
    simp only [callee, CallLink.any_frames]
    by_cases hmem : l.callee ∈ [root] ∨ l.callee ∈ chain.map CallLink.callee
    · rw [if_pos hmem] at hconcat
      have hleft : (n - CallLink.reentries [root] chain == 0) = false := by
        rw [beq_eq_false_iff_ne]
        omega
      simp only [hmem, hleft, decide_true, Bool.and_false, Bool.false_eq_true, if_false, if_true,
        pure_eq_ok]
      by_cases hlast : n - CallLink.reentries [root] chain - 1 = 0
      · rw [if_pos hlast, if_neg (by omega)]
      · rw [if_neg hlast, if_pos (by omega), CallLink.frames_concat, hconcat, Nat.sub_sub]
    · rw [if_neg hmem, Nat.add_zero] at hconcat
      have hleft : n - CallLink.reentries [root] chain ≠ 0 := by omega
      simp only [hmem, decide_false, Bool.false_and, Bool.false_eq_true, if_false, hleft,
        pure_eq_ok]
      rw [if_pos (by omega), CallLink.frames_concat, hconcat]
  · rw [if_neg hspent, if_neg (by omega)]
    rfl

lemma callee_historyOf (p : ContextPolicy) (thread : ThreadId) (root : String)
    (chain : List CallLink) (l : CallLink) :
    p.callee ⟨thread, p.historyOf root chain⟩ l.site l.caller l.callee =
      .ok ⟨thread, p.historyOf root (chain ++ [l])⟩ := by
  cases p with
  | insensitive => rfl
  | callString n =>
    simp only [callee, historyOf, lastSites_eq_rtake, rtake_rtake_concat, map_append]
    rfl
  | callSite n => exact callee_callSite thread n chain l
  | gas n => exact callee_gas thread n root chain l

/-! ## Chains of any length -/

variable {p : ContextPolicy} {thread : ThreadId} {root : String}

section

variable (hp : p ≠ .gas 0)
include hp

lemma root_eq : p.root thread root = ⟨thread, p.historyOf root []⟩ := by
  cases p with
  | insensitive => rfl
  | callString n | callSite n => simp [ContextPolicy.root, historyOf, CallLink.collapsed]
  | gas n =>
    have hn : 0 < n := Nat.pos_of_ne_zero fun h => hp (h ▸ rfl)
    simp [ContextPolicy.root, historyOf, CallLink.reentries, CallLink.frames, hn]

lemma follow_root (chain : List CallLink) :
    p.follow (p.root thread root) chain = .ok ⟨thread, p.historyOf root chain⟩ := by
  induction chain using reverseRecOn with
  | nil => rw [root_eq hp]; rfl
  | append_singleton chain l ih =>
    rw [follow] at ih ⊢
    rw [foldlM_append, ih, ok_bind, foldlM_cons, callee_historyOf]
    rfl

lemma keeps_historyOf {size : Nat} {names : List String} (hroot : root ∈ names)
    {chain : List CallLink} (h : ∀ l ∈ chain, l.site < size ∧ l.callee ∈ names) :
    Keeps size names p (p.historyOf root chain) := by
  induction chain using reverseRecOn with
  | nil =>
    have hkeeps : Keeps size names p (p.root .main root).history := keeps_root hroot
    rwa [root_eq hp] at hkeeps
  | append_singleton chain l ih =>
    obtain ⟨hchain, hl⟩ := forall_mem_append.1 h
    obtain ⟨hsite, hcallee⟩ := hl l (mem_singleton_self l)
    exact (keeps_callee (c := ⟨.main, _⟩) (ih hchain) hsite hcallee (callee_historyOf p _ _ _ l)).1

/-- As far as a policy looks back, it tells chains without recursion apart by their sites. -/
lemma sites_eq_of_historyOf_eq {chain chain' : List CallLink}
    (hlinked : CallLink.Linked root chain) (hlinked' : CallLink.Linked root chain')
    (hnodup : (root :: chain.map (·.callee)).Nodup)
      (hnodup' : (root :: chain'.map (·.callee)).Nodup)
    (hspans : p.Spans chain.length) (hspans' : p.Spans chain'.length)
    (h : p.historyOf root chain = p.historyOf root chain') :
    chain.map (·.site) = chain'.map (·.site) := by
  have hwhole : ∀ {n : Nat} {sites : List Nat}, sites.length ≤ n → sites.rtake n = sites := by
    intro n sites hlength
    rw [rtake, Nat.sub_eq_zero_of_le hlength, drop_zero]
  cases p with
  | insensitive => exact absurd hspans id
  | callString n =>
    simp only [historyOf, History.callString.injEq] at h
    rwa [hwhole (by rwa [length_map]), hwhole (by rwa [length_map])] at h
  | callSite n =>
    simp only [historyOf, History.callSite.injEq, CallLink.collapsed_of_nodup none hlinked hnodup,
      CallLink.collapsed_of_nodup none hlinked' hnodup'] at h
    rwa [hwhole (by rwa [length_map]), hwhole (by rwa [length_map])] at h
  | gas n =>
    have hn : 0 < n := Nat.pos_of_ne_zero fun h => hp (h ▸ rfl)
    simp only [historyOf, @CallLink.reentries_of_nodup chain [root] hnodup,
      @CallLink.reentries_of_nodup chain' [root] hnodup', hn, if_true, History.gas.injEq] at h
    have hframes := congrArg (filterMap Frame.site) h.1
    simpa [CallLink.frames, filterMap_map, Function.comp_def] using hframes

end

end ContextPolicy

/-! ## Chains of calls in a program -/

namespace Graph

/-- The program has the call: an edge of the caller that calls the callee. -/
def HasCall (g : Graph) (l : CallLink) : Prop :=
  ∃ e target args, g.edges[l.site]? = some e ∧ g.Belongs e.src l.caller ∧
    e.action = .call target l.callee args

/-- A chain of calls of the program, from `root` on. -/
structure IsCallChain (g : Graph) (root : String) (chain : List CallLink) : Prop where
  linked : CallLink.Linked root chain
  calls : ∀ l ∈ chain, g.HasCall l

variable {g : Graph} {root : String}

lemma HasCall.eq_of_site_eq {l l' : CallLink} (h : g.HasCall l) (h' : g.HasCall l')
    (hsite : l.site = l'.site) : l = l' := by
  obtain ⟨site, caller, callee⟩ := l
  obtain ⟨site', caller', callee'⟩ := l'
  obtain ⟨e, target, args, he, ⟨node, hnode, rfl⟩, ha⟩ := h
  obtain ⟨e', target', args', he', ⟨node', hnode', rfl⟩, ha'⟩ := h'
  obtain rfl : site = site' := hsite
  obtain rfl : e = e' := Option.some.inj (he.symm.trans he')
  obtain rfl : node = node' := Option.some.inj (hnode.symm.trans hnode')
  cases ha.symm.trans ha'
  rfl

lemma eq_of_sites_eq {chain chain' : List CallLink} (h : ∀ l ∈ chain, g.HasCall l)
    (h' : ∀ l ∈ chain', g.HasCall l) (hsites : chain.map (·.site) = chain'.map (·.site)) :
    chain = chain' := by
  induction chain generalizing chain' with
  | nil => exact (map_eq_nil_iff.1 hsites.symm).symm
  | cons l chain ih =>
    obtain ⟨l', rest, rfl, hl, hrest⟩ := map_eq_cons_iff.1 hsites.symm
    obtain ⟨hhead, htail⟩ := forall_mem_cons.1 h
    obtain ⟨hhead', htail'⟩ := forall_mem_cons.1 h'
    rw [hhead.eq_of_site_eq hhead' hl.symm, ih htail htail' hrest.symm]

lemma finite_historyOf {p : ContextPolicy} (hp : p ≠ .gas 0) :
    {h | ∃ chain, g.IsCallChain root chain ∧ p.historyOf root chain = h}.Finite := by
  let names := root :: g.edges.toList.filterMap (·.action.entered?)
  refine (finite_keeps g.edges.size names p).subset ?_
  rintro h ⟨chain, hchain, rfl⟩
  refine keeps_historyOf hp mem_cons_self fun l hl => ?_
  obtain ⟨e, target, args, he, -, ha⟩ := hchain.calls l hl
  have hmem : e ∈ g.edges.toList := mem_of_getElem? (by simpa using he)
  refine ⟨(Array.getElem?_eq_some_iff.1 he).1, mem_cons_of_mem _ ?_⟩
  exact mem_filterMap.2 ⟨e, hmem, by rw [ha]; rfl⟩

/-- The context after a chain of calls, for every policy with a budget: it keeps the thread of the
root, and its history has the closed form.  So a program has finitely many histories from a root,
and two chains without recursion that the policy looks back over have different contexts. -/
theorem follow_root_closed_form (p : ContextPolicy) (hp : p ≠ .gas 0) (thread : ThreadId)
    (root : String) :
    (∀ chain, p.follow (p.root thread root) chain = .ok ⟨thread, p.historyOf root chain⟩) ∧
    ∀ g : Graph,
      {h | ∃ chain, g.IsCallChain root chain ∧
        p.follow (p.root thread root) chain = .ok ⟨thread, h⟩}.Finite ∧
      ∀ chain chain', g.IsCallChain root chain → g.IsCallChain root chain' →
        (root :: chain.map (·.callee)).Nodup → (root :: chain'.map (·.callee)).Nodup →
        p.Spans chain.length → p.Spans chain'.length → chain ≠ chain' →
        p.follow (p.root thread root) chain ≠ p.follow (p.root thread root) chain' := by
  have hfollow : ∀ chain, p.follow (p.root thread root) chain =
    .ok ⟨thread, p.historyOf root chain⟩ :=
    follow_root hp
  refine ⟨hfollow, fun g => ⟨?_,
    fun chain chain' hchain hchain' hnodup hnodup' hspans hspans' hne => ?_⟩⟩
  · simp only [hfollow, Except.ok.injEq, Context.mk.injEq, true_and]
    exact finite_historyOf hp
  · rw [hfollow, hfollow]
    intro heq
    have hhistory := congrArg Context.history (Except.ok.inj heq)
    have hsites := sites_eq_of_historyOf_eq hp hchain.linked hchain'.linked hnodup hnodup'
      hspans hspans' hhistory
    exact hne (eq_of_sites_eq hchain.calls hchain'.calls hsites)

/-- A function that calls itself, and is called from two sites. -/
def selfCalls : List FunctionDef := [
  ⟨"main", [], [], .block [.act (.call none "f" []), .act (.call none "f" [])]⟩,
  ⟨"f", [], [], .act (.call none "f" [])⟩]

/-- Contexts of `selfCalls` by call sites: recursion from one site is kept once, and the two calls
by `main` are told apart. -/
theorem follow_root_closed_form_selfCalls :
    let p := ContextPolicy.callSite 2
    p.follow (p.root .main "main") [⟨0, "main", "f"⟩, ⟨3, "f", "f"⟩, ⟨3, "f", "f"⟩] =
      .ok ⟨.main, .callSite [0, 3]⟩ ∧
    ∃ g, ofFunctions {} selfCalls = .ok g ∧
      {h | ∃ chain, g.IsCallChain "main" chain ∧
        p.follow (p.root .main "main") chain = .ok ⟨.main, h⟩}.Finite ∧
      g.IsCallChain "main" [⟨0, "main", "f"⟩] ∧ g.IsCallChain "main" [⟨1, "main", "f"⟩] ∧
      p.follow (p.root .main "main") [⟨0, "main", "f"⟩] ≠
        p.follow (p.root .main "main") [⟨1, "main", "f"⟩] := by
  intro p
  obtain ⟨hclosed, hgraph⟩ := follow_root_closed_form p (by simp [p]) .main "main"
  refine ⟨(hclosed _).trans (by decide), ?_⟩
  obtain ⟨g, hg, hok⟩ := exists_of_any (x := ofFunctions {} selfCalls) (p := fun g =>
    (g.nodes[0]?).any (·.function == "main") && (g.nodes[2]?).any (·.function == "main") &&
    g.edges[0]? == some ⟨0, 2, .call none "f" []⟩ && g.edges[1]? == some ⟨2, 3, .call none "f" []⟩)
      (by decide +kernel)
  simp only [Bool.and_eq_true, beq_iff_eq, Option.any_eq_true] at hok
  obtain ⟨⟨⟨⟨n, hn, hmain⟩, n', hn', hmain'⟩, he⟩, he'⟩ := hok
  have hchain : g.IsCallChain "main" [⟨0, "main", "f"⟩] :=
    ⟨⟨rfl, trivial⟩, List.forall_mem_singleton.2 ⟨_, none, [], he, ⟨n, hn, hmain⟩, rfl⟩⟩
  have hchain' : g.IsCallChain "main" [⟨1, "main", "f"⟩] :=
    ⟨⟨rfl, trivial⟩, List.forall_mem_singleton.2 ⟨_, none, [], he', ⟨n', hn', hmain'⟩, rfl⟩⟩
  obtain ⟨hfinite, hapart⟩ := hgraph g
  have hlength : p.Spans 1 := Nat.le_succ 1
  exact ⟨g, hg, hfinite, hchain, hchain', hapart _ _ hchain hchain' (by decide) (by decide)
    hlength hlength (by decide)⟩

end Graph
end StaticAnalysis
