import StaticAnalysis.Numeric.Truth
import StaticAnalysis.Order.Domain
import StaticAnalysis.Order.SortedMap
import StaticAnalysis.Order.SortedSet
import StaticAnalysis.Program.Declaration

/-!
# Held mutexes

`LockSet` bounds the mutexes a thread holds from below and from above: each mutex it must hold, with
a lower bound on how often it is locked, and every mutex it may hold.  The bound is a 32-bit
counter, and locking faults where it would overflow.

`Protecting` collects, over all writes of a global, the mutexes held at each of them.
-/

namespace StaticAnalysis

/-- The mutexes a thread must hold, with their depth, and those it may hold. -/
structure LockSet where
  must : SortedMap String UInt32
  may : SortedSet String
deriving DecidableEq

namespace LockSet

def empty : LockSet := ⟨.empty, .empty⟩

variable (l m : LockSet) (mutex : String) (kind : MutexKind)

def mustHold : Bool := l.must.contains mutex

def mayHold : Bool := l.may.contains mutex

def mustHeld : List String := l.must.keys

def isEmpty (l : LockSet) : Bool := l.may.isEmpty

/-! ## Misuse -/

/-- Whether locking a mutex is no relock of a held one. -/
def lockSafety : Truth :=
  if kind.isRecursive then .true
  else if l.mustHold mutex then .false
  else if l.mayHold mutex then .unknown
  else .true

/-- Whether unlocking a mutex releases a held one. -/
def unlockSafety : Truth :=
  if l.mustHold mutex then .true
  else if l.mayHold mutex then .unknown
  else .false

/-! ## Transitions -/

/-- The depth of a mutex after one more lock.  Only a recursive mutex counts further locks. -/
def deepen (depth : UInt32) : Except Fault UInt32 :=
  if !kind.isRecursive && depth != 0 then .ok depth
  else if depth.toNat + 1 < UInt32.size then .ok (depth + 1)
  else .error (.overflow .add)

def lock : Except Fault LockSet := do
  return ⟨l.must.insert mutex (← deepen kind (l.must.getD mutex 0)), l.may.insert mutex⟩

/-- The mutexes held after unlocking one.  Nothing bounds the depth of a recursive mutex from
above, so it may still be held. -/
def unlock : LockSet :=
  let released : LockSet :=
    ⟨l.must.erase mutex, if kind.isRecursive then l.may else l.may.erase mutex⟩
  match l.must.get? mutex with
  | some depth =>
    if kind.isRecursive && decide (1 < depth) then { l with must := l.must.insert mutex (depth - 1) }
    else released
  | none => released

/-! ## Order -/

/-- Every mutex `m` must hold is held by `l` as deep, and every mutex `l` may hold is one `m` may
hold. -/
def le : Bool :=
  m.must.entries.all (fun (mutex, d) =>
    match l.must.get? mutex with
    | some e => decide (d ≤ e)
    | none => false) && l.may.subset m.may

def join : LockSet :=
  let common := l.must.entries.filterMap fun (mutex, d) =>
    (m.must.get? mutex).map fun e => (mutex, min d e)
  ⟨.ofList common, l.may.union m.may⟩

/-- What both sets say; nothing if one must hold what the other cannot. -/
def meet : Option LockSet :=
  let may := l.may.inter m.may
  let must := m.must.entries.foldl
    (fun acc (mutex, d) => acc.insert mutex (max (acc.getD mutex 0) d)) l.must
  if must.keys.all may.contains then some ⟨must, may⟩ else none

def text : String :=
  let must := l.must.entries.map fun (mutex, d) => mutex ++ "×" ++ toString d
  "must\x7b" ++ ", ".intercalate must ++ "\x7d may\x7b" ++ ", ".intercalate l.may.toList ++ "\x7d"

end LockSet

/-- The mutexes held at every write of a global so far; `unwritten` if there was none. -/
inductive Protecting where
  | unwritten
  | under (mutexes : SortedSet String)
deriving DecidableEq

namespace Protecting

/-- Whether every write held a mutex.  A global that is never written is protected by all. -/
def protectedBy (p : Protecting) (mutex : String) : Bool :=
  match p with
  | .unwritten => true
  | .under mutexes => mutexes.contains mutex

def isBottom : Protecting → Bool
  | .unwritten => true
  | .under _ => false

def isTop : Protecting → Bool
  | .unwritten => false
  | .under mutexes => mutexes.isEmpty

def le : Protecting → Protecting → Bool
  | .unwritten, _ => true
  | .under _, .unwritten => false
  | .under s, .under t => t.subset s

def join : Protecting → Protecting → Protecting
  | .unwritten, q => q
  | p, .unwritten => p
  | .under s, .under t => .under (s.inter t)

def meet : Protecting → Protecting → Protecting
  | .under s, .under t => .under (s.union t)
  | _, _ => .unwritten

instance : Domain Protecting where
  bottom := .unwritten
  top := .under .empty
  isBottom p := pure p.isBottom
  isTop p := pure p.isTop
  le p q := pure (p.le q)
  join p q := pure (p.join q)
  meet p q := pure (p.meet q)
  widen p q := pure (p.join q)
  narrow p q := pure (p.meet q)

end Protecting
end StaticAnalysis
