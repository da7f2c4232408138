import StaticAnalysis.Proofs.Order.Reachability
import StaticAnalysis.Proofs.Program.Loops

/-!
# Loop heads and cyclic points

What `finish` finds in a graph of any shape; its functions may share points or reach those of each
other.  No cycle behind an entry avoids the heads, since the walk settles points in an order
(`Finished`).  In turn, the points on the path of a walk lead to the point where the walk is, so an
edge back onto the path closes a cycle.
-/

namespace StaticAnalysis

open Fault List SortedSet
namespace Graph

/-- The point can reach itself along edges. -/
def OnCycle (next : Nat → List Nat) (n : Nat) : Prop :=
  Relation.TransGen (fun a b => b ∈ next a) n n

/-- The heads found so far are on cycles. -/
def Walk.Cyclic (next : Nat → List Nat) (w : Walk) : Prop := ∀ m ∈ w.heads, OnCycle next m

variable {next : Nat → List Nat} {path : List Nat} {w : Walk} {g g' : Graph}
variable {n : Nat} {base : Graph} {nodes : List Node} {edges : List Edge}
  {functions : List Function}

lemma cyclic_walkFrom {fuel : Nat} (hpath : ∀ k ∈ path,
    Relation.TransGen (fun a b => b ∈ next a) k n)
    (hw : w.Cyclic next) : (walkFrom next fuel path n w).Cyclic next := by
  induction fuel generalizing path n w with
  | zero => exact hw
  | succ fuel ih =>
    rw [walkFrom_succ]
    refine List.foldlRecOn (motive := Walk.Cyclic next) (next n) _ hw ?_
    intro w hw m hm
    have hpath' : ∀ k ∈ n :: path, Relation.TransGen (fun a b => b ∈ next a) k m :=
      forall_mem_cons.2 ⟨.single hm, fun k hk => (hpath k hk).tail hm⟩
    unfold visit
    split
    next hon =>
      intro k hk
      rcases mem_insert.1 hk with rfl | hk
      exacts [hpath' k (contains_iff_mem.1 hon), hw k hk]
    · split
      exacts [hw, ih hpath' hw]

lemma EdgesWithin.onCycle_of_mem_findHeads (hg : g.EdgesWithin) {l : List Nat} :
    ∀ n ∈ g.findHeads l, OnCycle g.successors n := by
  rw [findHeads_eq hg]
  refine List.foldlRecOn (motive := Walk.Cyclic g.successors) l _ ?_ ?_
  · exact fun n hn => absurd hn (not_mem_empty n)
  · intro w hw m hm
    unfold visit
    split
    next hon => simp at hon
    · split
      exacts [hw, cyclic_walkFrom (by simp) hw]

lemma EdgesWithin.mem_findCyclic (hg : g.EdgesWithin) :
    n ∈ g.findCyclic ↔ OnCycle g.successors n := by
  have heq : g.findCyclic = .ofList ((List.range g.nodes.size).filter fun n =>
      Closure.reaches (List.range g.nodes.size) g.successors (g.successors n) n) := by
    rw [← hg.table_eq]
    rfl
  have hlt {k m : Nat} (hm : m ∈ g.successors k) : m ∈ List.range g.nodes.size :=
    mem_range.2 (hg.successor_lt hm).2
  rw [heq, mem_ofList, List.mem_filter, mem_range,
    Closure.reaches_iff (fun _ => hlt) (fun _ _ _ => hlt), OnCycle, Relation.TransGen.head'_iff]
  refine and_iff_right_of_imp ?_
  rintro ⟨k, hk, -⟩
  exact (hg.successor_lt hk).1

lemma edgesWithin_addEdge {src dst : Nat} {action : Action} (hg : g.EdgesWithin)
    (h : g.addEdge src dst action = .ok g') : g'.EdgesWithin := by
  unfold addEdge at h
  split at h
  · cases h
  next hsrc =>
    split at h
    · cases h
    next hdst =>
      cases h
      intro e he
      rcases (by simpa [pushEdge] using he : e ∈ g.edges ∨ e = ⟨src, dst, action⟩) with he | rfl
      exacts [hg e (by simpa using he), ⟨Nat.lt_of_not_le hsrc, Nat.lt_of_not_le hdst⟩]

lemma edgesWithin_ofParts (hbase : base.edges = #[])
    (h : ofParts base nodes edges functions true = .ok g) : ∃ d : Graph, d.EdgesWithin ∧
    d.finish = .ok g := by
  obtain ⟨d, hd, hfinish⟩ := bind_eq_ok.1 h
  have hnodes : (nodes.foldl (fun g n => g.addNode n.function n.location) base).edges = #[] :=
    List.foldlRecOn (motive := fun g : Graph => g.edges = #[]) nodes _ hbase fun _ hg _ _ => hg
  refine ⟨_, ?_, hfinish⟩
  have hwithin : d.EdgesWithin := foldlM_induct (fun _ _ _ _ hg h => edgesWithin_addEdge hg h)
    (by simp [EdgesWithin, hnodes]) hd
  exact hwithin

/-- The loops of a graph, whatever its points, edges and functions are.  A cycle through a point
that can be reached from the start of a function holds a loop head, every loop head is on a cycle,
and a point is in a loop exactly if it is on a cycle. -/
theorem loops_exact (hbase : base.edges = #[])
    (h : ofParts base nodes edges functions true = .ok g) :
    (∀ n walk, g.Live n → List.IsChain (fun a b => b ∈ g.successors a) (n :: walk) → n ∈ walk →
      ∃ m ∈ walk, m ∈ g.loops.heads) ∧
    (∀ n ∈ g.loops.heads, OnCycle g.successors n) ∧ ∀ n, g.inLoop n ↔ OnCycle g.successors n := by
  obtain ⟨d, hd, hfinish⟩ := edgesWithin_ofParts hbase h
  have hlt := entries_lt hfinish
  obtain rfl := finish_eq hfinish
  refine ⟨fun n walk => ?_, hd.onCycle_of_mem_findHeads, fun n => ?_⟩
  · exact exists_head_of_loop (g := d) hd hlt
  · exact SortedSet.contains_iff.trans hd.mem_findCyclic

/-- Two functions that share a loop of three points, which they enter at different ones. -/
def sharedLoop : Except Fault Graph :=
  ofParts {} (List.replicate 5 ⟨"f", none⟩)
    [⟨0, 2, .skip⟩, ⟨2, 3, .skip⟩, ⟨3, 4, .skip⟩, ⟨4, 2, .skip⟩, ⟨1, 3, .skip⟩]
    [⟨"f", [], [], 0, 4⟩, ⟨"g", [], [], 1, 4⟩] true

/-- In `sharedLoop`, the cycle is cut where the first function enters it, and the entries are on no
cycle. -/
theorem loops_exact_sharedLoop :
    ∃ g, sharedLoop = .ok g ∧ g.loops.heads.toList = [2] ∧
      (∀ n walk, g.Live n → List.IsChain (fun a b => b ∈ g.successors a) (n :: walk) → n ∈ walk →
        ∃ m ∈ walk, m ∈ g.loops.heads) ∧ OnCycle g.successors 2 ∧ ¬ OnCycle g.successors 1 := by
  obtain ⟨g, hg, hok⟩ := exists_of_any (x := sharedLoop) (p := fun g =>
    g.loops.heads.toList == [2] && !g.inLoop 1) (by decide +kernel)
  simp only [Bool.and_eq_true, beq_iff_eq, Bool.not_eq_true'] at hok
  obtain ⟨hcut, hheads, hin⟩ := loops_exact rfl hg
  have hhead : 2 ∈ g.loops.heads := mem_toList.1 (by simp [hok.1])
  exact ⟨g, hg, hok.1, hcut, hheads 2 hhead, fun h => by simp [(hin 1).2 h] at hok⟩

end Graph
end StaticAnalysis
