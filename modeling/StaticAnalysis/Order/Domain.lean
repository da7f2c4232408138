import StaticAnalysis.Arith.Fault

/-!
# Abstract domains

What every abstract domain of the analyser offers: an order, its extremes, joins and meets, and the
pair of operators that force and then repair convergence of an ascending iteration.  An operation
of a domain may fault; domains that never do instantiate the class with `pure`.
-/

namespace StaticAnalysis

/-- The operations of an abstract domain. -/
class Domain (α : Type) where
  bottom : α
  top : α
  isBottom : α → Except Fault Bool
  isTop : α → Except Fault Bool
  le : α → α → Except Fault Bool
  join : α → α → Except Fault α
  meet : α → α → Except Fault α
  widen : α → α → Except Fault α
  narrow : α → α → Except Fault α

namespace Domain

variable {α : Type} [Domain α]

def equiv (a b : α) : Except Fault Bool := do
  if ← le a b then le b a else pure false

/-- The join of a list, started from the bottom element. -/
def joinMany (xs : List α) : Except Fault α := xs.foldlM join bottom

end Domain
end StaticAnalysis
