import StaticAnalysis.Numeric.Truth
import StaticAnalysis.Thread.Access

/-!
# Verdicts and warnings

What an analysis says about the checks and the mutex operations of a program, and the races it
finds.
-/

namespace StaticAnalysis

/-- The outcome of a check. -/
inductive Verdict where
  /-- It holds in every run. -/
  | proven
  /-- It fails in every run. -/
  | refuted
  | unknown
deriving DecidableEq, Repr

namespace Verdict

def ofTruth : Truth → Verdict
  | .true => .proven
  | .false => .refuted
  | .unknown => .unknown

def combine (a b : Verdict) : Verdict := if a = b then a else .unknown

def text : Verdict → String
  | .proven => "proven"
  | .refuted => "refuted"
  | .unknown => "unknown"

end Verdict

/-- The outcome of a check of the program. -/
structure CheckResult where
  id : Nat
  node : Nat
  location : Option Location
  /-- The checked condition as C source. -/
  condition : String
  verdict : Verdict
  /-- Some context reaches the check.  Otherwise it holds for want of runs. -/
  reachable : Bool
deriving DecidableEq

inductive LockOp where
  | lock
  | unlock
deriving DecidableEq, Repr

/-- Whether a mutex operation is free of misuse. -/
structure LockCheck where
  edge : Nat
  mutex : String
  op : LockOp
  verdict : Verdict
deriving DecidableEq

inductive Warning where
  /-- A mutex that is not recursive is locked while it is, or may be, held. -/
  | doubleLock (mutex : String) (edge : Nat) (definite : Bool)
  /-- A mutex is unlocked that is not, or may be not, held. -/
  | unlockNotHeld (mutex : String) (edge : Nat) (definite : Bool)
  /-- Two accesses to a global may happen in parallel without a common mutex. -/
  | race (cell : Cell) (first second : Access)
deriving DecidableEq

namespace Warning

def certainty (definite : Bool) : String := if definite then "" else "possible "

def accessText (a : Access) : String :=
  (if a.write then "write" else "read") ++ " by " ++ a.thread.text ++ " at " ++ edgeName a.edge

def text : Warning → String
  | .doubleLock m e definite => certainty definite ++ "double lock of `" ++ m ++ "` at " ++
    edgeName e
  | .unlockNotHeld m e definite =>
    certainty definite ++ "unlock of `" ++ m ++ "` not held at " ++ edgeName e
  | .race c a b => "race on " ++ c.text ++ ": " ++ accessText a ++ " and " ++ accessText b

end Warning

/-- The accesses to each global. -/
abbrev AccessMap := SortedMap Cell (SortedSet Access)

namespace AccessMap

def add (m : AccessMap) (c : Cell) (accesses : SortedSet Access) : AccessMap :=
  m.insert c ((m.getD c .empty).union accesses)

def races (m : AccessMap) : List Warning :=
  m.entries.filterMap fun (c, accesses) =>
    (Access.firstRace? accesses.toList).map fun (a, b) => .race c a b

end AccessMap
end StaticAnalysis
