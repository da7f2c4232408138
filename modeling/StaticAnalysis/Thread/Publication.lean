import StaticAnalysis.Thread.ThreadId

/-!
# Publication strategies

When a thread's writes to globals become visible to other threads.  Every strategy makes every
write visible to reads that hold no protecting mutex; the others let a thread keep a private copy
of a global while it holds a mutex that protects it, and publish the copy at the unlock.
-/

namespace StaticAnalysis

/-- How writes to globals are published to other threads. -/
inductive Publication where
  /-- Every read sees every write of every thread. -/
  | none
  /-- Private copies while a protecting mutex is held. -/
  | protection
  /-- Protection, and locking a mutex sees only what was published at its unlocks. -/
  | mutexMeet
  /-- The same with publications told apart by thread; a unique thread remembers its own last
  one. -/
  | mutexMeetThread
  /-- The same with threads that are not unique told apart by function only. -/
  | lockDigest
deriving DecidableEq, Repr

/-- The publisher of a value at an unlock. -/
inductive Part where
  | all
  | thread (t : ThreadId)
  | digest (text : String)
deriving DecidableEq, Repr

namespace Part

def rank : Part → Nat
  | .all => 0
  | .thread _ => 1
  | .digest _ => 2

def thread? : Part → Option ThreadId
  | .thread t => some t
  | _ => none

def digest? : Part → Option String
  | .digest text => some text
  | _ => none

instance : Ord Part where
  compare := compareLex (compareOn rank) (compareLex (compareOn thread?) (compareOn digest?))

instance : Std.TransOrd Part :=
  inferInstanceAs (Std.TransCmp
    (compareLex (compareOn rank) (compareLex (compareOn thread?) (compareOn digest?))))

instance : Std.LawfulEqOrd Part :=
  Order.Reads.lawful (.lex .on <| .lex .on .on)
    fun a b h => by cases a <;> cases b <;> simp_all [rank, thread?, digest?]

end Part

namespace Publication

/-- Whether locking a mutex reads what was published at its unlocks. -/
def isMeet : Publication → Bool
  | .none | .protection => false
  | .mutexMeet | .mutexMeetThread | .lockDigest => true

/-- Whether publications are told apart by publisher. -/
def isPartitioned : Publication → Bool
  | .none | .protection | .mutexMeet => false
  | .mutexMeetThread | .lockDigest => true

def part (p : Publication) (t : ThreadId) : Part :=
  match p with
  | .mutexMeetThread => .thread t
  | .lockDigest => .digest (if t.isUnique then t.text else t.function?.getD "main" ++ "*")
  | _ => .all

def text : Publication → String
  | .none => "none"
  | .protection => "protection"
  | .mutexMeet => "mutex-meet"
  | .mutexMeetThread => "mutex-meet-tid"
  | .lockDigest => "lock-digest"

end Publication
end StaticAnalysis
