import StaticAnalysis.Order.SortedSet

/-!
# Closing a set under successors

Every reachability question of the analyser (cycles of a graph, recursive functions, nodes that
depend on an edit, cells behind a pointer) is one depth-first closure: take the next element, skip
it if it was seen, otherwise mark it and put its successors in front of the remaining work.

`expand` may refuse to go on; the closure then ends with its reason.  A search for a goal is a
closure whose `expand` refuses at the goal.
-/

namespace StaticAnalysis.Closure

variable {ε κ : Type} [Ord κ] [Std.TransOrd κ]

/-- Close `seen` under `expand`, starting from `work`, in at most `fuel` steps.  Work is taken from
the front, and of several successors the last is taken first. -/
def run (expand : κ → Except ε (List κ)) : Nat → SortedSet κ → List κ → Except ε (SortedSet κ)
  | 0, seen, _ => .ok seen
  | _ + 1, seen, [] => .ok seen
  | fuel + 1, seen, k :: work =>
    if seen.contains k then run expand fuel seen work
    else
      match expand k with
      | .error e => .error e
      | .ok next => run expand fuel (seen.insert k) (next.reverse ++ work)

/-- Steps that suffice when every element met is in `carrier`: each element of the work is taken
once, and each element of the carrier adds its successors once. -/
def steps (expand : κ → Except ε (List κ)) (carrier : List κ) (work : List κ) : Nat :=
  let added := carrier.flatMap fun k =>
    match expand k with
    | .ok next => next
    | .error _ => []
  work.length + added.length + 1

/-- The elements reachable from `start` through `expand`, all of which are in `carrier`. -/
def reach (carrier : List κ) (expand : κ → Except ε (List κ)) (start : List κ) :
    Except ε (SortedSet κ) :=
  run expand (steps expand carrier start) .empty start.reverse

/-- Whether `goal` is among `start` or behind it. -/
def reaches [DecidableEq κ] (carrier : List κ) (next : κ → List κ) (start : List κ) (goal : κ) :
    Bool :=
  let expand (k : κ) : Except Unit (List κ) := if k = goal then .error () else .ok (next k)
  match reach carrier expand start with
  | .ok _ => false
  | .error _ => true

end StaticAnalysis.Closure
