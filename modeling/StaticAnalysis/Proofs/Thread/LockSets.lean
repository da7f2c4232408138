import StaticAnalysis.Proofs.State.Order

/-!
# What a thread holds

A thread holds each mutex to some depth.  Along every path the lock set bounds these depths: a mutex
that must be held is held at least as deep as recorded, and one that is held may be held.  Verdicts
on locking and unlocking follow (`Obtained.bounds_depths`).  Recorded depths have 32 bits, and a
lock set that would need more of them is not obtained; it takes as many locks of one recursive mutex
to get there.

A mutex that is not recursive is held once at most.  This is why it may not be held any more after
it was unlocked, while nothing of the kind is known of a recursive one.
-/

namespace StaticAnalysis

open Bool Fault SortedMap SortedSet

namespace LockSet

variable {kind : String → MutexKind} {l l' : LockSet} {mutex m : String} {d : UInt32}
  {depths depths' : String → Nat} {S : Set (String → Nat)}

/-- The depths to which a thread holds its mutexes, before and after it locks one.  A mutex that is
not recursive has depth one afterwards, also if it was held. -/
def Locks (kind : MutexKind) (mutex : String) (depths depths' : String → Nat) : Prop :=
  depths' = Function.update depths mutex (if kind.isRecursive then depths mutex + 1 else 1)

/-- Unlocking takes a mutex that is held. -/
def Unlocks (mutex : String) (depths depths' : String → Nat) : Prop :=
  0 < depths mutex ∧ depths' = Function.update depths mutex (depths mutex - 1)

/-- The lock sets along the paths of a program, each with the depths that threads have on these
paths. Where paths meet, the lock sets are joined, and a thread comes along one of them. -/
inductive Obtained (kind : String → MutexKind) : LockSet → Set (String → Nat) → Prop
  | empty : Obtained kind empty {fun _ => 0}
  | lock {l l' : LockSet} {S : Set (String → Nat)} (h : Obtained kind l S) (mutex : String)
    (hlock : l.lock mutex (kind mutex) = .ok l') :
    Obtained kind l' {t | ∃ s ∈ S, Locks (kind mutex) mutex s t}
  | unlock {l : LockSet} {S : Set (String → Nat)} (h : Obtained kind l S) (mutex : String) :
    Obtained kind (l.unlock mutex (kind mutex)) {t | ∃ s ∈ S, Unlocks mutex s t}
  | join {l l' : LockSet} {S S' : Set (String → Nat)} (h : Obtained kind l S)
    (h' : Obtained kind l' S') : Obtained kind (l.join l') (S ∪ S')

/-! ## Lookups after a transition -/

lemma deepen_eq_ok {k : MutexKind} {e : UInt32} : deepen k d = .ok e ↔
    e.toNat = if k.isRecursive ∨ d = 0 then d.toNat + 1 else d.toNat := by
  have hsize := UInt32.toNat_lt e
  unfold deepen
  split
  next hheld =>
    rw [and_eq_true, not_eq_true', bne_iff_ne] at hheld
    rw [if_neg (by simp [hheld]), Except.ok.injEq, ← UInt32.toNat_inj, eq_comm]
  next hdeeper =>
    have hdeeper : k.isRecursive = true ∨ d = 0 := by simpa [or_iff_not_imp_left] using hdeeper
    rw [if_pos hdeeper]
    split
    next h =>
      rw [Except.ok.injEq, ← UInt32.toNat_inj, UInt32.toNat_add, eq_comm]
      exact Iff.of_eq (congrArg (_ = ·) (Nat.mod_eq_of_lt h))
    next h => exact iff_of_false (fun h => by cases h) fun he => h (he ▸ hsize)

lemma may_lock (h : l.lock mutex (kind mutex) = .ok l') : l'.may = l.may.insert mutex := by
  unfold lock at h
  obtain ⟨e, -, h⟩ := bind_eq_ok.1 h
  cases h
  rfl

/-- A mutex that is locked gets deeper if it is recursive or was not held before. -/
lemma get?_lock (h : l.lock mutex (kind mutex) = .ok l') (hd : l'.must.get? m = some d) :
    (m = mutex ∧ d.toNat = if (kind mutex).isRecursive ∨ l.must.getD mutex 0 = 0 then
        (l.must.getD mutex 0).toNat + 1 else (l.must.getD mutex 0).toNat) ∨
      m ≠ mutex ∧ l.must.get? m = some d := by
  unfold lock at h
  obtain ⟨e, he, h⟩ := bind_eq_ok.1 h
  cases h
  rw [get?_insert] at hd
  split at hd
  next heq =>
    cases hd
    exact .inl ⟨heq, deepen_eq_ok.1 he⟩
  next hne => exact .inr ⟨hne, hd⟩

/-- Only a recursive mutex that was locked more than once must be held after it was unlocked. -/
lemma get?_unlock (h : (l.unlock mutex (kind mutex)).must.get? m = some d) :
    (m = mutex ∧ (kind mutex).isRecursive ∧ 0 < d.toNat ∧
        ∃ e, l.must.get? mutex = some e ∧ e.toNat = d.toNat + 1) ∨
      m ≠ mutex ∧ l.must.get? m = some d := by
  have hreleased (h : (l.must.erase mutex).get? m = some d) : m ≠ mutex ∧
      l.must.get? m = some d := by
    rw [get?_erase] at h
    split at h
    · cases h
    next hne => exact ⟨hne, h⟩
  unfold unlock at h
  dsimp only at h
  split at h
  next depth hdepth =>
    split at h
    next hrec =>
      simp only [and_eq_true, decide_eq_true_eq] at hrec
      rw [get?_insert] at h
      split at h
      next heq =>
        cases h
        have hdeep : 1 < depth.toNat := UInt32.lt_iff_toNat_lt.1 hrec.2
        have hless : (depth - 1).toNat = depth.toNat - 1 :=
          UInt32.toNat_sub_of_le _ _ (UInt32.le_iff_toNat_le.2 hdeep.le)
        exact .inl ⟨heq, hrec.1, by omega, depth, hdepth, by omega⟩
      next hne => exact .inr ⟨hne, h⟩
    next => exact .inr (hreleased h)
  next => exact .inr (hreleased h)

lemma mem_may_unlock : m ∈ (l.unlock mutex (kind mutex)).may ↔
    m ∈ l.may ∧ (m = mutex → (kind mutex).isRecursive) := by
  have hreleased : m ∈ (if (kind mutex).isRecursive then l.may else l.may.erase mutex) ↔
      m ∈ l.may ∧ (m = mutex → (kind mutex).isRecursive = true) := by
    cases (kind mutex).isRecursive <;> simp
  unfold unlock
  dsimp only
  split
  · split
    next hrec =>
      rw [and_eq_true] at hrec
      simp [hrec.1]
    next => exact hreleased
  next => exact hreleased

/-! ## Bounds -/

/-- What must be held was locked, and may be held. -/
def Coherent (l : LockSet) : Prop := ∀ m d, l.must.get? m = some d → 0 < d.toNat ∧ m ∈ l.may

/-- The depths of a thread are between what must and what may be held, and at most one for a mutex
that is not recursive. -/
structure Bounds (kind : String → MutexKind) (l : LockSet) (depths : String → Nat) : Prop where
  must : ∀ m d, l.must.get? m = some d → d.toNat ≤ depths m
  may : ∀ m, 0 < depths m → m ∈ l.may
  once : ∀ m, (kind m).isRecursive = false → depths m ≤ 1

lemma Coherent.lock (h : l.Coherent) (hlock : l.lock mutex (kind mutex) = .ok l') :
    l'.Coherent := by
  intro m d hd
  rw [may_lock hlock]
  rcases get?_lock hlock hd with ⟨heq, hd⟩ | ⟨-, hd⟩
  · refine ⟨?_, mem_insert.2 (.inl heq)⟩
    split at hd
    · omega
    next hheld =>
      rw [hd]
      exact Nat.pos_of_ne_zero fun hzero => hheld (.inr (UInt32.toNat_inj.1 hzero))
  · exact (h m d hd).imp_right fun hm => mem_insert.2 (.inr hm)

lemma Coherent.unlock (h : l.Coherent) : (l.unlock mutex (kind mutex)).Coherent := by
  intro m d hd
  rw [mem_may_unlock]
  rcases get?_unlock hd with ⟨rfl, hrec, hone, e, he, -⟩ | ⟨hne, hd⟩
  · exact ⟨hone, (h m e he).2, fun _ => hrec⟩
  · exact ⟨(h m d hd).1, (h m d hd).2, fun heq => absurd heq hne⟩

lemma Coherent.join (h : l.Coherent) (h' : l'.Coherent) : (l.join l').Coherent := by
  intro m d hd
  obtain ⟨e, f, he, hf, rfl⟩ := must_join hd
  refine ⟨?_, mem_union.2 (.inl (h m e he).2)⟩
  rw [UInt32.min_def]
  split
  exacts [(h m e he).1, (h' m f hf).1]

section

variable (h : l.Bounds kind depths)
include h

lemma Bounds.getD_le (m : String) : (l.must.getD m 0).toNat ≤ depths m := by
  rw [getD_eq]
  cases hget : l.must.get? m with
  | none => exact Nat.zero_le _
  | some d => exact h.must m d hget

lemma Bounds.lock (hlock : l.lock mutex (kind mutex) = .ok l')
    (hstep : Locks (kind mutex) mutex depths depths') : l'.Bounds kind depths' := by
  obtain rfl := hstep
  have hdepth := h.getD_le mutex
  refine ⟨fun m d hd => ?_, fun m hm => may_lock hlock ▸ ?_, fun m hm => ?_⟩
  · rcases get?_lock hlock hd with ⟨rfl, hd⟩ | ⟨hne, hd⟩
    · rw [Function.update_self, hd]
      cases hrec : (kind m).isRecursive with
      | true => simpa using hdepth
      | false =>
        have honce := h.once m hrec
        split
        next hzero => simp [hzero.resolve_left false_ne_true]
        next => exact hdepth.trans honce
    · rw [Function.update_of_ne hne]
      exact h.must m d hd
  · by_cases heq : m = mutex
    · exact mem_insert.2 (.inl heq)
    · rw [Function.update_of_ne heq] at hm
      exact mem_insert.2 (.inr (h.may m hm))
  · by_cases heq : m = mutex
    · subst heq
      simp [hm]
    · rw [Function.update_of_ne heq]
      exact h.once m hm

lemma Bounds.unlock (hstep : Unlocks mutex depths depths') :
    (l.unlock mutex (kind mutex)).Bounds kind depths' := by
  obtain ⟨-, rfl⟩ := hstep
  refine ⟨fun m d hd => ?_, fun m hm => ?_, fun m hm => ?_⟩
  · rcases get?_unlock hd with ⟨rfl, -, -, e, he, hde⟩ | ⟨hne, hd⟩
    · rw [Function.update_self]
      exact Nat.le_sub_one_of_lt (hde.symm.trans_le (h.must m e he))
    · rw [Function.update_of_ne hne]
      exact h.must m d hd
  · rw [mem_may_unlock]
    by_cases heq : m = mutex
    · subst heq
      rw [Function.update_self] at hm
      refine ⟨h.may m (by omega), fun _ => ?_⟩
      -- A mutex that is not recursive had depth one, and is not held any more.
      by_contra hrec
      have honce := h.once m (not_eq_true _ ▸ hrec)
      omega
    · rw [Function.update_of_ne heq] at hm
      exact ⟨h.may m hm, fun h => absurd h heq⟩
  · by_cases heq : m = mutex
    · subst heq
      rw [Function.update_self]
      exact (Nat.sub_le _ _).trans (h.once m hm)
    · rw [Function.update_of_ne heq]
      exact h.once m hm

/-- The bounds stay bounds in a larger lock set. -/
lemma Bounds.mono (hle : l.le l') : l'.Bounds kind depths := by
  obtain ⟨hmust, hmay⟩ := le_iff.1 hle
  refine ⟨fun m d hd => ?_, fun m hm => hmay m (h.may m hm), h.once⟩
  obtain ⟨e, he, hde⟩ := hmust m d hd
  exact (UInt32.le_iff_toNat_le.1 hde).trans (h.must m e he)

end

lemma Obtained.coherent (h : Obtained kind l S) : l.Coherent := by
  induction h with
  | empty =>
    intro m d hd
    cases hd
  | lock _ _ hlock ih => exact ih.lock hlock
  | unlock _ _ ih => exact ih.unlock
  | join _ _ ih ih' => exact ih.join ih'

lemma Obtained.bounds (h : Obtained kind l S) : ∀ depths ∈ S, l.Bounds kind depths := by
  induction h with
  | empty =>
    rintro _ rfl
    refine ⟨fun m d hd => ?_, fun m hm => absurd hm (Nat.lt_irrefl 0), fun _ _ => Nat.zero_le 1⟩
    cases hd
  | lock _ _ hlock ih =>
    rintro _ ⟨s, hs, hstep⟩
    exact (ih s hs).lock hlock hstep
  | unlock _ _ ih =>
    rintro _ ⟨s, hs, hstep⟩
    exact (ih s hs).unlock hstep
  | join _ _ ih ih' =>
    rintro s (hs | hs)
    · exact (ih s hs).mono (le_join_left _ _)
    · exact (ih' s hs).mono (le_join_right _ _)

/-! ## Verdicts -/

lemma mustHold_iff : l.mustHold m ↔ ∃ d, l.must.get? m = some d := contains_iff

lemma lockSafety_eq_unlockSafety {k : MutexKind} (hk : k.isRecursive = false) :
    l.lockSafety m k = (l.unlockSafety m).not := by
  simp only [lockSafety, unlockSafety, hk, false_eq_true, if_false]
  split
  · rfl
  · split <;> rfl

lemma Bounds.unlockSafety (h : l.Bounds kind depths) (hl : l.Coherent) (m : String) :
    (l.unlockSafety m = .true → 0 < depths m) ∧ (l.unlockSafety m = .false → depths m = 0) := by
  unfold LockSet.unlockSafety
  split
  next hmust =>
    obtain ⟨d, hd⟩ := mustHold_iff.1 hmust
    exact ⟨fun _ => (hl m d hd).1.trans_le (h.must m d hd), fun hfalse => by cases hfalse⟩
  next =>
    split
    next => exact ⟨fun htrue => (by cases htrue), fun hfalse => by cases hfalse⟩
    next hmay =>
      refine ⟨fun htrue => (by cases htrue), fun _ => Nat.eq_zero_of_not_pos fun hheld => hmay ?_⟩
      exact contains_iff.2 (h.may m hheld)

lemma Bounds.exists_lock (h : l.Bounds kind depths) (hm : depths m + 1 < UInt32.size) :
    ∃ l', l.lock m (kind m) = .ok l' := by
  have hdeepen : ∃ e, deepen (kind m) (l.must.getD m 0) = .ok e := by
    unfold deepen
    rw [if_pos ((Nat.succ_le_succ (h.getD_le m)).trans_lt hm)]
    split
    exacts [⟨_, rfl⟩, ⟨_, rfl⟩]
  obtain ⟨e, he⟩ := hdeepen
  exact ⟨_, bind_eq_ok.2 ⟨e, he, rfl⟩⟩

/-- On every path, the depths to which a thread holds its mutexes are bounded by the lock set: what
must be held is recorded with a depth of one or more, and is held at least as deep; what is held may
be held; and what must be held may be held.  So the verdict on locking a mutex that is not recursive
is right, and so is the one on unlocking any mutex.  Locking faults only if the mutex is held as
often as 32 bits can count. -/
theorem Obtained.bounds_depths (h : Obtained kind l S) :
    (∀ m, l.mustHold m = true → l.mayHold m = true) ∧
    ∀ depths ∈ S,
      (∀ m d, l.must.get? m = some d → 1 ≤ d.toNat ∧ d.toNat ≤ depths m) ∧
      (∀ m, 0 < depths m → l.mayHold m = true) ∧
      (∀ m, (kind m).isRecursive = false →
        (l.lockSafety m (kind m) = .true → depths m = 0) ∧
        (l.lockSafety m (kind m) = .false → 0 < depths m)) ∧
      (∀ m, (l.unlockSafety m = .true → 0 < depths m) ∧
        (l.unlockSafety m = .false → depths m = 0)) ∧
      ∀ m, depths m + 1 < UInt32.size → ∃ l', l.lock m (kind m) = .ok l' := by
  have hl := h.coherent
  refine ⟨fun m hm => ?_, fun depths hdepths => ?_⟩
  · obtain ⟨d, hd⟩ := mustHold_iff.1 hm
    exact SortedSet.contains_iff.2 (hl m d hd).2
  have hb := h.bounds depths hdepths
  refine ⟨fun m d hd => ⟨(hl m d hd).1, hb.must m d hd⟩,
    fun m hm => SortedSet.contains_iff.2 (hb.may m hm), fun m hm => ?_, hb.unlockSafety hl,
    fun m hm => hb.exists_lock hm⟩
  rw [lockSafety_eq_unlockSafety hm]
  obtain ⟨htrue, hfalse⟩ := hb.unlockSafety hl m
  constructor <;> intro hnot
  · refine hfalse ?_
    cases hs : l.unlockSafety m <;> simp_all [Truth.not]
  · refine htrue ?_
    cases hs : l.unlockSafety m <;> simp_all [Truth.not]

/-- Of all mutexes, only `r` is recursive. -/
def onlyRecursive (mutex : String) : MutexKind := if mutex = "r" then .recursive else .plain

/-- One path locks `r` twice and then `m`, another one locks `r` once.  Where they meet `r` must be
held, once at least, and `m` may be.  A thread that comes along the first path holds `r` twice. -/
theorem bounds_depths_merged : ∃ l S, Obtained onlyRecursive l S ∧ l.must.get? "r" = some 1 ∧
    l.unlockSafety "r" = .true ∧ l.lockSafety "m" (onlyRecursive "m") = .unknown ∧
      ∃ depths ∈ S, depths "r" = 2 ∧ 0 < depths "r" ∧ l.mayHold "m" = true := by
  have hsecond : Obtained onlyRecursive _ _ := Obtained.empty.lock "r" rfl
  have h := ((hsecond.lock "r" rfl).lock "m" rfl).join hsecond
  have hmem : ∃ depths ∈ {t | ∃ s ∈ {t | ∃ s ∈ {t | ∃ s ∈ ({fun _ => 0} : Set (String → Nat)),
      Locks (onlyRecursive "r") "r" s t}, Locks (onlyRecursive "r") "r" s t},
      Locks (onlyRecursive "m") "m" s t}, depths "r" = 2 ∧ depths "m" = 1 :=
    ⟨_, ⟨_, ⟨_, ⟨_, rfl, rfl⟩, rfl⟩, rfl⟩, by decide, by decide⟩
  obtain ⟨depths, hdepths, hr, hm⟩ := hmem
  obtain ⟨-, hmay, -, hunlock, -⟩ := h.bounds_depths.2 depths (.inl hdepths)
  refine ⟨_, _, h, by decide, by decide, by decide, depths, .inl hdepths, hr, ?_, ?_⟩
  · exact (hunlock "r").1 (by decide)
  · exact hmay "m" (hm ▸ Nat.one_pos)

end LockSet
end StaticAnalysis
