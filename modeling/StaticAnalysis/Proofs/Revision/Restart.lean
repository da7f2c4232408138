import Mathlib.Order.Bounds.Basic
import StaticAnalysis.Proofs.Order.Reachability
import StaticAnalysis.Proofs.Program.Loops
import StaticAnalysis.Revision.Delta

/-!
# Which nodes an edit restarts

The nodes that are solved again after an edit are the changed ones and those that they affect, step
after step, and no others.  The remaining nodes can keep their states: they have the same function
and the same incoming edges as before, and all these edges come from nodes that keep their states
too.
-/

namespace StaticAnalysis

open List SortedSet

namespace Graph

/-- The state at the first node is used for the state at the second one, or for that at the start of
a thread. -/
inductive Affects (g : Graph) : Nat → Nat → Prop
  | influences {a b : Nat} (h : g.Influences a b) : Affects g a b
  | spawn {e : Edge} {function : String} {arg : Option Expr} {f : Function} (he : e ∈ g.edges.toList)
    (ha : e.action = .spawn function arg) (hf : g.function? function = some f) : Affects g e.src f.entry

variable {g old : Graph}

variable {n m : Nat}

lemma mem_influencedByEdge {e : Edge} (he : e ∈ g.edges.toList)
    (hm : m ∈ g.influencedByEdge e) : g.Affects e.src m := by
  unfold influencedByEdge at hm
  rcases mem_cons.1 hm with rfl | hm
  · exact .influences (.step he)
  · split at hm
    next ha =>
      obtain ⟨f, hf, rfl⟩ := Option.map_eq_some_iff.1 (Option.mem_toList.1 hm)
      exact .influences (.call he ha hf)
    next ha =>
      obtain ⟨f, hf, rfl⟩ := Option.map_eq_some_iff.1 (Option.mem_toList.1 hm)
      exact .spawn he ha hf
    · cases hm

lemma mem_returnSites {function : String} : m ∈ g.returnSites function ↔
    ∃ e ∈ g.edges.toList, ∃ target args, e.action = .call target function args ∧ e.dst = m := by
  refine mem_filterMap.trans (exists_congr fun e => and_congr_right fun _ => ?_)
  split
  next target callee args ha =>
    rw [ha]
    constructor
    · intro h
      split at h
      next heq => exact ⟨target, args, by rw [heq], Option.some.inj h⟩
      · cases h
    · rintro ⟨target', args', heq, rfl⟩
      cases heq
      rw [if_pos rfl]
  next hne =>
    refine iff_of_false (by simp) ?_
    rintro ⟨target, args, ha, -⟩
    exact hne _ _ _ ha

/-- A node influences those that it affects. -/
lemma Partitioned.exists_influenced (hg : g.Partitioned) (hn : n < g.nodes.size) :
    ∃ next, g.influenced n = .ok next ∧ ∀ m, m ∈ next ↔ g.Affects n m := by
  have hbelongs : g.Belongs n g.nodes[n].function := ⟨_, Array.getElem?_eq_getElem hn, rfl⟩
  refine ⟨_, by rw [influenced, hbelongs.functionOf]; rfl, fun m => ?_⟩
  rw [mem_append]
  constructor
  · rintro (hm | hm)
    · obtain ⟨⟨id, e⟩, he, hmem⟩ := mem_flatMap.1 hm
      obtain rfl : e.src = n := by simpa using (mem_filter.1 he).2
      exact mem_influencedByEdge (mem_edges_of_edgesFrom he) hmem
    · split at hm
      next hexit =>
        obtain ⟨f, hf, hn⟩ := (Option.any_eq_true _ _).1 hexit
        obtain ⟨e, he, target, args, ha, rfl⟩ := mem_returnSites.1 hm
        obtain rfl : f.exit = n := by simpa using hn
        exact .influences (.ret he ha hf)
      · cases hm
  · have hahead {e : Edge} (he : e ∈ g.edges.toList) (hm : m ∈ g.influencedByEdge e) :
        m ∈ (g.edgesFrom e.src).flatMap fun ie => g.influencedByEdge ie.2 := by
      obtain ⟨id, hid⟩ := mem_iff_getElem?.1 he
      exact mem_flatMap.2 ⟨(id, e), mem_edgesFrom (by simpa using hid), hm⟩
    rintro (⟨⟨he⟩ | ⟨he, ha, hf⟩ | ⟨he, ha, hf⟩⟩ | ⟨he, ha, hf⟩)
    · exact .inl (hahead he mem_cons_self)
    · exact .inl (hahead he (by simp [influencedByEdge, ha, hf]))
    · obtain rfl := hbelongs.unique (hg.exit _ _ hf)
      refine .inr ?_
      rw [if_pos (by simp [hf])]
      exact mem_returnSites.2 ⟨_, he, _, _, ha, rfl⟩
    · exact .inl (hahead he (by simp [influencedByEdge, ha, hf]))

lemma Partitioned.affects_lt (hg : g.Partitioned) {a b : Nat} (h : g.Affects a b) :
    b < g.nodes.size := by
  obtain ⟨⟨he⟩ | ⟨-, -, hf⟩ | ⟨he, -, -⟩⟩ | ⟨-, -, hf⟩ := h
  · exact (hg.edgesWithin _ he).2
  · exact (hg.entry _ _ hf).lt
  · exact (hg.edgesWithin _ he).2
  · exact (hg.entry _ _ hf).lt

lemma Partitioned.changedNodes_lt (hg : g.Partitioned) (hn : n ∈ old.changedNodes g) :
    n < g.nodes.size := by
  have hentry {name : String} {f : Function} (hf : (name, f) ∈ g.functions.entries) :
      f.entry < g.nodes.size := (hg.entry name f (SortedMap.get?_eq_some_iff.2 hf)).lt
  unfold changedNodes at hn
  rw [mem_ofList, mem_append, mem_append] at hn
  rcases hn with (hn | hn) | hn
  · exact mem_range.1 (mem_filter.1 hn).1
  · obtain ⟨⟨name, f⟩, hf, h⟩ := mem_filterMap.1 hn
    dsimp only at h
    split at h
    · cases h
    · exact Option.some.inj h ▸ hentry hf
  · split at hn
    · cases hn
    · obtain ⟨f, hf, h⟩ := mem_filterMap.1 hn
      obtain ⟨⟨name, f⟩, hmem, rfl⟩ := mem_map.1 hf
      split at h
      · cases h
      · exact Option.some.inj h ▸ hentry hmem

/-- The edges into a node as sources and actions, in order. -/
def sources (g : Graph) (n : Nat) : List (Nat × Action) :=
  (g.edgesInto n).map fun ie => (ie.2.src, ie.2.action)

lemma unchanged (hn : n < g.nodes.size) (h : n ∉ old.changedNodes g) :
    (∃ function, old.Belongs n function ∧ g.Belongs n function) ∧
      (old.sources n).Perm (g.sources n) := by
  have hsame : nodeChanged old g n = false := by
    refine Bool.eq_false_iff.2 fun hchanged => h ?_
    unfold changedNodes
    rw [mem_ofList]
    exact mem_append_left _ (mem_append_left _ (mem_filter.2 ⟨mem_range.2 hn, hchanged⟩))
  unfold nodeChanged at hsame
  split at hsame
  next a b ha hb =>
    simp only [Bool.or_eq_false_iff, bne_eq_false_iff_eq] at hsame
    refine ⟨⟨a.function, ⟨a, ha, rfl⟩, b, hb, hsame.1.symm⟩, ?_⟩
    calc old.sources n
      List.Perm _ (old.incoming n) := (mergeSort_perm _ _).symm
      List.Perm _ (g.incoming n) := .of_eq hsame.2
      List.Perm _ (g.sources n) := mergeSort_perm _ _
  · cases hsame

/-- The nodes solved again after an edit are the least set that holds the changed ones and is closed
under what nodes affect.  All others have the function and the incoming edges that they had before
the edit, and these edges come from nodes that are not solved again either. -/
theorem restart_exact {base : Graph} (hedges : base.edges = #[])
    (hfunctions : base.functions = .empty) {functions : List FunctionDef}
    (hbuilt : ofFunctions base functions = .ok g) (old : Graph) :
    ∃ r, g.forwardClosure (old.changedNodes g) = .ok r ∧ (∀ n ∈ r, n < g.nodes.size) ∧
      IsLeast {s : Set Nat | (∀ n ∈ old.changedNodes g, n ∈ s) ∧
        ∀ a ∈ s, ∀ b, g.Affects a b → b ∈ s} {n | n ∈ r} ∧
      ∀ n < g.nodes.size, n ∉ r →
        (∃ function, old.Belongs n function ∧ g.Belongs n function) ∧
        (old.sources n).Perm (g.sources n) ∧
        ∀ e ∈ g.edges.toList, e.dst = n → e.src ∉ r := by
  have hg : g.Partitioned := partitioned_ofFunctions hedges hfunctions hbuilt
  have hlt : ∀ n ∈ (old.changedNodes g).toList, n < g.nodes.size :=
    fun n hn => hg.changedNodes_lt (mem_toList.1 hn)
  have hstart : (old.changedNodes g).toList.filter (· < g.nodes.size) =
    (old.changedNodes g).toList :=
    filter_eq_self.2 fun n hn => decide_eq_true (hlt n hn)
  have hnext {a : Nat} {next : List Nat} (ha : a < g.nodes.size) (h : g.influenced a = .ok next)
      {b : Nat} : b ∈ next ↔ g.Affects a b := by
    obtain ⟨next', hnext', hmem⟩ := hg.exists_influenced ha
    cases h.symm.trans hnext'
    exact hmem b
  -- Within any closed set, the closure meets only nodes of the graph, where it never refuses.
  have hwithin (s : Set Nat) (hs : ∀ a ∈ s, ∀ b, g.Affects a b → b ∈ s)
      (hchanged : ∀ n ∈ old.changedNodes g, n ∈ s) :
      (∀ r, g.forwardClosure (old.changedNodes g) = .ok r → ∀ n ∈ r, n < g.nodes.size ∧ n ∈ s) ∧
        ∀ e, g.forwardClosure (old.changedNodes g) ≠ .error e := by
    rw [forwardClosure, hstart]
    refine And.imp id (fun herror e he => ?_)
      (Closure.reach_within (P := fun n => n < g.nodes.size ∧ n ∈ s) (fun a ha next h b hb => ?_)
        fun n hn => ⟨hlt n hn, hchanged n (mem_toList.1 hn)⟩)
    · obtain ⟨n, hn, hrefused⟩ := herror e he
      obtain ⟨next, h, -⟩ := hg.exists_influenced hn.1
      cases h.symm.trans hrefused
    · have hab := (hnext ha.1 h).1 hb
      exact ⟨hg.affects_lt hab, hs a ha.2 b hab⟩
  obtain ⟨r, hr⟩ : ∃ r, g.forwardClosure (old.changedNodes g) = .ok r := by
    cases h : g.forwardClosure (old.changedNodes g) with
    | error e => exact absurd h ((hwithin Set.univ (by simp) (by simp)).2 e)
    | ok r => exact ⟨r, rfl⟩
  have hin := (hwithin Set.univ (by simp) (by simp)).1 r hr
  obtain ⟨hchanged, hclosed⟩ : (∀ n ∈ old.changedNodes g, n ∈ r) ∧ ∀ a ∈ r, ∀ b, g.Affects a b →
    b ∈ r := by
    have hreach := hr
    rw [forwardClosure, hstart] at hreach
    obtain ⟨hstarted, hclosed⟩ := Closure.reach_closed (fun n hn => mem_range.2 (hlt n hn))
      (fun a ha next h b hb => mem_range.2
        (hg.affects_lt ((hnext (mem_range.1 ha) h).1 hb))) hreach
    refine ⟨fun n hn => hstarted n (mem_toList.2 hn), fun a ha b hab => ?_⟩
    obtain ⟨next, h, hmem⟩ := hclosed a ha
    exact hmem b ((hnext (hin a ha).1 h).2 hab)
  refine ⟨r, hr, fun n hn => (hin n hn).1, ⟨⟨hchanged, hclosed⟩, fun s hs n hn => ?_⟩,
    fun n hn hout => ?_⟩
  · exact ((hwithin s hs.2 hs.1).1 r hr n hn).2
  · obtain ⟨hfunction, hsources⟩ := unchanged hn fun h => hout (hchanged n h)
    refine ⟨hfunction, hsources, fun e he hdst hsrc => hout ?_⟩
    exact hdst ▸ hclosed _ hsrc _ (.influences (.step he))

/-- Two functions; `main` calls `id` and stores `n` after that. -/
def storeAfterCall (n : Int) : List FunctionDef := [
  ⟨"id", [⟨"a", .int⟩], [], .ret (some (.read (.var "a")))⟩,
  ⟨"main", [], [⟨"x", .int⟩, ⟨"y", .int⟩], .block [
    .act (.call (some (.var "x")) "id" [.const 1]),
    .act (.assign (.var "y") (.const n)),
    .act (.assign (.var "x") (.read (.var "y")))]⟩]

/-- When `storeAfterCall` stores another number, the node behind the store is solved again. -/
theorem restart_exact_storeAfterCall :
    ∃ old g r, ofFunctions {} (storeAfterCall 2) = .ok old ∧ ofFunctions {}
      (storeAfterCall 3) = .ok g ∧ g.forwardClosure (old.changedNodes g) = .ok r ∧ 6 ∈ r ∧
      ∀ n < g.nodes.size, n ∉ r → (old.sources n).Perm (g.sources n) := by
  obtain ⟨old, hold, hok⟩ := Fault.exists_of_any (x := ofFunctions {} (storeAfterCall 2))
    (p := fun old =>
    (ofFunctions {} (storeAfterCall 3)).toOption.any fun g : Graph =>
      decide (6 < g.nodes.size ∧ ¬ (old.sources 6).Perm (g.sources 6))) (by decide +kernel)
  obtain ⟨g, hg, hok⟩ := Fault.exists_of_any hok
  obtain ⟨hlt, hstore⟩ := of_decide_eq_true hok
  obtain ⟨r, hr, -, -, hout⟩ := restart_exact rfl rfl hg old
  refine ⟨old, g, r, hold, hg, hr, ?_, fun n hn h => (hout n hn h).2.1⟩
  by_contra h
  exact hstore (hout 6 hlt h).2.1

end Graph
end StaticAnalysis
