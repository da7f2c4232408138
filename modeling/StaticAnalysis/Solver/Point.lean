import StaticAnalysis.Call.Context

/-!
# Points

The unknowns that the solver solves for: a node of the program in a context.  Points are ordered by
node first, and the solver takes the least point of its worklist next.
-/

namespace StaticAnalysis

/-- A program node in a context. -/
structure Point where
  node : Nat
  context : Context
deriving DecidableEq

namespace Point

instance : Ord Point where
  compare := compareLex (compareOn node) (compareOn context)

instance : Std.TransOrd Point :=
  inferInstanceAs (Std.TransCmp (compareLex (compareOn node) (compareOn context)))

instance : Std.LawfulEqOrd Point :=
  Order.Reads.lawful (.lex .on .on) fun a b h => by cases a; cases b; simp_all

end Point
end StaticAnalysis
