import StaticAnalysis.Proofs.Order.Reachability
import StaticAnalysis.Proofs.Program.Loops
import StaticAnalysis.Solver.Tracking

/-!
# Recursive functions

A function is recursive if calls lead from it back to it.  The search starts at its callees and
meets called functions only, so it ends on every call graph, and what it finds is the transitive
closure of `Calls`.
-/

namespace StaticAnalysis.Graph

variable {g : Graph} {caller callee : String}

lemma mem_callees : callee ∈ g.callees caller ↔ g.Calls caller callee := by
  simp only [callees, Calls, List.mem_filterMap]
  refine exists_congr fun e => and_congr_right fun _ => ?_
  cases e.action <;> simp [Belongs, Option.any_eq_true]
  tauto

lemma Calls.mem_called (h : g.Calls caller callee) : callee ∈ g.called := by
  obtain ⟨e, he, target, args, haction, -⟩ := h
  exact List.mem_filterMap.2 ⟨e, he, by rw [haction]⟩

/-- The recursive functions are those of the program from which a chain of one or more calls leads
back. -/
theorem mem_recursiveFunctions (g : Graph) (f : String) :
    f ∈ g.recursiveFunctions ↔ f ∈ g.functions.keys ∧ Relation.TransGen g.Calls f f := by
  have hcallees (caller : String) : ∀ callee ∈ g.callees caller, callee ∈ g.called :=
    fun _ h => (mem_callees.1 h).mem_called
  rw [recursiveFunctions, SortedSet.mem_ofList, List.mem_filter, isRecursive,
    Closure.reaches_iff (hcallees f) (fun caller _ => hcallees caller), Relation.TransGen.head'_iff]
  simp only [mem_callees]

end StaticAnalysis.Graph
