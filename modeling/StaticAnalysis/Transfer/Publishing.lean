import StaticAnalysis.Shared.Store
import StaticAnalysis.State.Typing

/-!
# Globals of a program with several threads

Once a program has started a second thread, globals no longer live in the state of a thread: every
access goes through the shared store.  The publication strategy decides when a write becomes
visible to other threads and which published values a read may see.

Every write is published for reads that hold no protecting mutex.  The strategies that know mutexes
also keep private copies of globals while a mutex is held that protects them, and publish those
copies at the unlock.
-/

namespace StaticAnalysis.State

/-! ## Reading and writing -/

variable (env : Env) (s : State) (mutex : String) (c : Cell)

def recordAccess (write : Bool) : Step Unit :=
  Shared.publish (.accesses c) (.accesses (.singleton {
    thread := env.thread
    write
    locks := .ofList s.locks.mustHeld
    joined := s.joined
    created := s.created
    edge := env.edge }))

/-- Whether a mutex that is held protects a global. -/
def holdsProtection (p : Protecting) : Bool := s.locks.mustHeld.any p.protectedBy

/-- What other threads have published about a global, as far as a thread with these locks can see
it. -/
def view : Step Value := do
  if env.settings.publication = .none then Shared.value (.published c)
  else if s.holdsProtection (← Shared.writeLocks c) then Shared.value (.guarded c)
  else Shared.value (.published c)

/-- The value of a global in the current thread, without recording an access. -/
def current : Step Value := do
  match s.copies.get? c with
  | some p => if p.exact then return p.value else p.value.join (← s.view env c)
  | none => s.view env c

def readGlobal : Step Value := do
  s.recordAccess env c false
  s.current env c

def writeGlobal (v : Value) : Step State := do
  s.recordAccess env c true
  Shared.publish (.writeLocks c) (.protecting (.under (.ofList s.locks.mustHeld)))
  Shared.publish (.published c) (.value v)
  if s.locks.mustHeld.isEmpty then Shared.publish (.guarded c) (.value v)
  let writes ← Shared.writeLocks c
  if env.settings.publication ≠ .none ∧ s.holdsProtection writes then
    return { s with copies := s.copies.insert c ⟨v, true⟩ }
  else return { s with copies := s.copies.erase c }

/-- Refine the exact private copy of a global, if there is one. -/
def refineCopy (v : Value) : State :=
  match s.copies.get? c with
  | some p => if p.exact then { s with copies := s.copies.insert c { p with value := v } } else s
  | none => s

/-! ## Mutexes -/

def joinAll (values : List Value) : Except Fault Value := values.foldlM Value.join .bottom

/-- What the publications at the unlocks of a mutex allow after locking it.  A unique thread
remembers its own last publication. -/
def unlockedView : Step Value := do
  let strategy := env.settings.publication
  let parts ← Shared.parts mutex c
  if !strategy.isPartitioned then joinAll parts.values
  else
    let own := strategy.part env.thread
    let others ← joinAll (parts.filter fun p _ => p != own).values
    let published := parts.getD own .bottom
    let mine := if env.thread.isUnique then s.kept.getD ⟨mutex, c⟩ published else published
    others.join mine

/-- Take private copies of the globals that a mutex protects, after locking it.  A copy that comes
from a path with one thread was never published, so it is not met with what was. -/
def acquire : Step State := do
  if !env.settings.publication.isMeet then return s
  env.graph.globalCells.foldlM (fun s c => do
    if (← Shared.writeLocks c).protectedBy mutex then
      let v ← s.current env c
      let pending := (s.copies.get? c).any (!·.exact)
      let published ← if pending then pure Value.bottom else s.unlockedView env mutex c
      let v ← if ← published.isBottom then pure v else v.meet published
      return { s with copies := s.copies.insert c ⟨v, true⟩ }
    else return s) s

/-- Publish the private copies, after unlocking a mutex, and drop those that no held mutex protects
any more. -/
def release : Step State := do
  let strategy := env.settings.publication
  if strategy = .none then return s
  s.copies.entries.foldlM (fun s (c, p) => do
    let v ← if p.exact then pure p.value else p.value.join (← s.view env c)
    Shared.publish (.guarded c) (.value v)
    if !p.exact then Shared.publish (.published c) (.value v)
    let writes ← Shared.writeLocks c
    let mut s := s
    if strategy.isMeet && writes.protectedBy mutex then
      Shared.publish (.unlocked mutex c) (.parts (.singleton (strategy.part env.thread) v))
      if strategy.isPartitioned && env.thread.isUnique then
        s := { s with
          kept := if p.exact then s.kept.insert ⟨mutex, c⟩ v else s.kept.erase ⟨mutex, c⟩ }
    if s.holdsProtection writes then return s
    else return { s with copies := s.copies.erase c }) s

/-! ## Starting threads -/

/-- Make a value of a global visible to every thread in every view. -/
def announce (v : Value) : Step State := do
  let strategy := env.settings.publication
  Shared.publish (.published c) (.value v)
  Shared.publish (.guarded c) (.value v)
  if !strategy.isMeet then return s
  env.graph.mutexes.keys.foldlM (fun s m => do
    Shared.publish (.unlocked m c) (.parts (.singleton (strategy.part env.thread) v))
    if strategy.isPartitioned && env.thread.isUnique then
      let kept ← match s.kept.get? ⟨m, c⟩ with
        | some k => liftM (k.join v)
        | none => pure v
      return { s with kept := s.kept.insert ⟨m, c⟩ kept }
    else return s) s

/-- At the first start of a thread, move all globals to the shared store. -/
def announceGlobals : Step State := do
  let s ← env.graph.globalCells.foldlM (fun s c => s.announce env c (s.get c)) s
  return { s with
    cells := s.cells.filter fun c _ => !c.isGlobal && !c.isHeap
    multithreaded := true }

/-- At a later start of a thread, publish the inexact copies, which the new thread may read. -/
def announcePending : Step State :=
  (s.copies.filter fun _ p => !p.exact).entries.foldlM (fun s (c, p) => s.announce env c p.value) s

end StaticAnalysis.State
