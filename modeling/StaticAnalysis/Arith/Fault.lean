/-!
# Faults

An operation of the analyser that leaves the range of its words, or that names a program point or an
edge that does not exist, has no result.  `Fault` says why; every operation that can stop in this
way returns in `Except Fault` (or in a monad that can raise one), so that the place and the order
in which faults arise are visible in its type.
-/

namespace StaticAnalysis

/-- The word operation whose exact result did not fit. -/
inductive WordOp where
  | add
  | subtract
  | multiply
  | negate
deriving DecidableEq, Repr

/-- The verb that names an operation in a message. -/
def WordOp.verb : WordOp → String
  | .add => "add"
  | .subtract => "subtract"
  | .multiply => "multiply"
  | .negate => "negate"

/-- Why an operation has no result. -/
inductive Fault where
  /-- The exact result of an operation is outside the range of its type. -/
  | overflow (op : WordOp)
  /-- Entry `index` of a list of `length` nodes or edges was asked for. -/
  | outOfBounds (length index : Nat)
deriving DecidableEq, Repr

def Fault.message : Fault → String
  | .overflow op => "attempt to " ++ op.verb ++ " with overflow"
  | .outOfBounds length index =>
    "index out of bounds: the len is " ++ toString length ++ " but the index is " ++ toString index

end StaticAnalysis
