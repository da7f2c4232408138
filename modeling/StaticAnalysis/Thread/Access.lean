import StaticAnalysis.Memory.Cell
import StaticAnalysis.Thread.ThreadId

/-!
# Accesses to globals and races

An access records which thread reads or writes a global, at which edge, and what orders it against
other accesses: the mutexes the thread must hold, the threads it must have joined, and the threads
it may have created so far.  Two accesses race when one of them writes, no mutex is common to both,
and neither is known to come before the other.
-/

namespace StaticAnalysis

/-- One access to a global in a program with several threads. -/
structure Access where
  thread : ThreadId
  write : Bool
  /-- Mutexes that must be held. -/
  locks : SortedSet String
  /-- Threads that must have been joined. -/
  joined : SortedSet ThreadId
  /-- Threads that may have been created. -/
  created : SortedSet ThreadId
  edge : Nat
deriving DecidableEq

namespace Access

instance : Ord Access where
  compare :=
    compareLex (compareOn thread) (compareLex (compareOn write) (compareLex (compareOn locks)
      (compareLex (compareOn joined) (compareLex (compareOn created) (compareOn edge)))))

instance : Std.TransOrd Access :=
  inferInstanceAs (Std.TransCmp (compareLex (compareOn thread) (compareLex (compareOn write)
    (compareLex (compareOn locks)
      (compareLex (compareOn joined) (compareLex (compareOn created) (compareOn edge)))))))

instance : Std.LawfulEqOrd Access :=
  Order.Reads.lawful (.lex .on <| .lex .on <| .lex .on <| .lex .on <| .lex .on .on)
    fun a b h => by cases a; cases b; simp_all

/-- Whether all accesses of `b`'s thread come after `a`, or have ended before it: `a`'s thread has
joined it, or it descends from a thread that `a`'s thread had not yet created. -/
def orderedBefore (a b : Access) : Bool :=
  if a.joined.contains b.thread then true
  else if !a.thread.isUnique then false
  else
    match ThreadId.childTowards a.thread b.thread with
    | some child => !a.created.contains child
    | none => false

/-- Whether two accesses to one global may race.  A unique thread is ordered with itself. -/
def mayRace (a b : Access) : Bool :=
  if !(a.write || b.write) || !a.locks.disjoint b.locks then false
  else if a.thread = b.thread then !a.thread.isUnique
  else !a.orderedBefore b && !b.orderedBefore a

/-- The first pair of racing accesses of a list, an access paired with itself included. -/
def firstRace? : List Access → Option (Access × Access)
  | [] => none
  | a :: rest =>
    match (a :: rest).find? a.mayRace with
    | some b => some (a, b)
    | none => firstRace? rest

end Access
end StaticAnalysis
