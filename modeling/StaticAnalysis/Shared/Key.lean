import StaticAnalysis.Call.Context
import StaticAnalysis.Memory.Cell

/-!
# Keys of the shared store

Besides one state per program point and context, an analysis keeps a store that all points share:
the states in which functions are entered, what threads publish about globals, and the summaries
of functions that are analysed in isolation.
-/

namespace StaticAnalysis

/-- What is kept about a global for all threads. -/
inductive SharedKey where
  /-- Every value ever written, and the initial one. -/
  | published (c : Cell)
  /-- The values that a thread sees that has locked a protecting mutex. -/
  | guarded (c : Cell)
  /-- The values published at the unlocks of a mutex, by publisher. -/
  | unlocked (mutex : String) (c : Cell)
  /-- The mutexes held at every write. -/
  | writeLocks (c : Cell)
  | accesses (c : Cell)
deriving DecidableEq

namespace SharedKey

def rank : SharedKey → Nat
  | .published _ => 0
  | .guarded _ => 1
  | .unlocked _ _ => 2
  | .writeLocks _ => 3
  | .accesses _ => 4

def mutex : SharedKey → String
  | .unlocked m _ => m
  | _ => ""

def cell : SharedKey → Cell
  | .published c | .guarded c | .unlocked _ c | .writeLocks c | .accesses c => c

instance : Ord SharedKey where
  compare := compareLex (compareOn rank) (compareLex (compareOn mutex) (compareOn cell))

instance : Std.TransOrd SharedKey :=
  inferInstanceAs (Std.TransCmp
    (compareLex (compareOn rank) (compareLex (compareOn mutex) (compareOn cell))))

instance : Std.LawfulEqOrd SharedKey :=
  Order.Reads.lawful (.lex .on <| .lex .on .on)
    fun a b h => by cases a <;> cases b <;> simp_all [rank, mutex, cell]

end SharedKey

inductive GlobalKey where
  /-- The state in which a function is entered in a context. -/
  | entry (function : String) (context : Context)
  | shared (key : SharedKey)
  | summary (function : String)
deriving DecidableEq

namespace GlobalKey

def rank : GlobalKey → Nat
  | .entry _ _ => 0
  | .shared _ => 1
  | .summary _ => 2

def function : GlobalKey → String
  | .entry f _ | .summary f => f
  | .shared _ => ""

def context? : GlobalKey → Option Context
  | .entry _ c => some c
  | _ => none

def shared? : GlobalKey → Option SharedKey
  | .shared k => some k
  | _ => none

instance : Ord GlobalKey where
  compare := compareLex (compareOn rank)
    (compareLex (compareOn function) (compareLex (compareOn context?) (compareOn shared?)))

instance : Std.TransOrd GlobalKey :=
  inferInstanceAs (Std.TransCmp (compareLex (compareOn rank)
    (compareLex (compareOn function) (compareLex (compareOn context?) (compareOn shared?)))))

instance : Std.LawfulEqOrd GlobalKey :=
  Order.Reads.lawful (.lex .on <| .lex .on <| .lex .on .on)
    fun a b h => by cases a <;> cases b <;> simp_all [rank, function, context?, shared?]

/-- The name of a key that belongs to a function. -/
def text : GlobalKey → String
  | .entry f c => "entry " ++ f ++ " " ++ c.text
  | .shared _ => "shared"
  | .summary f => "summary " ++ f

end GlobalKey
end StaticAnalysis
