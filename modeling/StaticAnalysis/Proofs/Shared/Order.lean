import StaticAnalysis.Proofs.State.Order
import StaticAnalysis.Shared.Key
import StaticAnalysis.Shared.Value

/-!
# Order of shared values

Every key of the shared store holds values of one kind (`GlobalKey.Fits`).  On values that fit one
key, comparison never faults and is transitive, and joins and widenings are upper bounds
(`GlobalValue.join_spec`, `GlobalValue.widen_spec`).
-/

namespace StaticAnalysis

open Fault SortedMap SortedSet Summary Value Protecting Value State

/-! ## Summaries -/

namespace Summary

/-- What a summary says about values is scalar. -/
structure Flat (s : Summary) : Prop where
  ret : s.ret.Scalar
  writes : State.ScalarMap s.writes

lemma flat_bottom : bottom.Flat := ⟨trivial, fun _ _ h => by simp [bottom] at h⟩

lemma flat_unknown : unknown.Flat := ⟨trivial, fun _ _ h => by simp [unknown] at h⟩

lemma flat_ofReturn {v : Value} (h : v.Scalar) : (ofReturn v).Flat := ⟨h, flat_bottom.writes⟩

/-- Each write of `s` is covered by a write of `t`. -/
def WritesBelow {κ : Type} [Ord κ] (s t : SortedMap κ Value) : Prop :=
  ∀ c v, s.get? c = some v → ∃ w, t.get? c = some w ∧ v.Below w

section Entries

variable {κ : Type} [Ord κ]

lemma WritesBelow.refl (s : SortedMap κ Value) : WritesBelow s s := fun _ v hv => ⟨v, hv, .refl v⟩

lemma WritesBelow.trans {s t u : SortedMap κ Value} (ht : State.ScalarMap t)
    (hst : WritesBelow s t) (htu : WritesBelow t u) : WritesBelow s u := by
  intro c v hv
  obtain ⟨w, hw, hvw⟩ := hst c v hv
  obtain ⟨x, hx, hwx⟩ := htu c w hw
  exact ⟨x, hx, hvw.trans (shaped_iff.2 (ht c w hw)) hwx⟩

variable [Std.TransOrd κ] [Std.LawfulEqOrd κ]

lemma writesBelow_eq {s t : SortedMap κ Value} (hs : State.ScalarMap s) (ht : State.ScalarMap t) :
    ∃ b, (s.entries.allM fun (c, v) =>
        match t.get? c with
        | some w => v.le w
        | none => pure false) = .ok b ∧ (b = true ↔ WritesBelow s t) := by
  have hall : (∀ e ∈ s.entries, ∃ w, t.get? e.1 = some w ∧ e.2.Below w) ↔ WritesBelow s t :=
    ⟨fun h c v hv => h (c, v) (get?_eq_some_iff.1 hv),
      fun h e he => h e.1 e.2 (get?_eq_some_iff.2 he)⟩
  rw [← hall]
  refine exists_allM fun e he => ?_
  dsimp only
  cases hw : t.get? e.1 with
  | none => exact ⟨false, rfl, by simp⟩
  | some w =>
    have hv := hs _ _ (get?_eq_some_iff.2 he)
    have hw := ht _ w hw
    exact ⟨_, le_eq hv hw, by simp [below_iff hv hw]⟩

lemma mergeM_spec [DecidableEq κ] {f : Value → Value → Except Fault Value}
    (hf : Value.UpperBound f) {s t r : SortedMap κ Value} (hs : State.ScalarMap s)
    (ht : State.ScalarMap t) (h : s.mergeM f t = .ok r) :
    State.ScalarMap r ∧ WritesBelow s r ∧ WritesBelow t r := by
  have hall : ∀ c, (∀ u, r.get? c = some u → u.Scalar) ∧
      (∀ v, s.get? c = some v → ∃ w, r.get? c = some w ∧ v.Below w) ∧
      ∀ v, t.get? c = some v → ∃ w, r.get? c = some w ∧ v.Below w := by
    intro c
    have hc := get?_mergeM h c
    cases hv : s.get? c with
    | none =>
      simp only [hv] at hc
      rw [hc]
      exact ⟨ht c, by simp, fun v hv => ⟨v, hv, .refl v⟩⟩
    | some v =>
      cases hw : t.get? c with
      | none =>
        simp only [hv, hw] at hc
        rw [hc, ← hv]
        exact ⟨hs c, fun v hv => ⟨v, hv, .refl v⟩, by simp⟩
      | some w =>
        simp only [hv, hw] at hc
        obtain ⟨u, hu, hc⟩ := hc
        simpa [hc] using hf (hs c v hv) (ht c w hw) hu
  exact ⟨fun c => (hall c).1, fun c => (hall c).2.1, fun c => (hall c).2.2⟩

end Entries

/-- The components of `s` are below those of `t`, which does not allow everything. -/
structure Below (s t : Summary) : Prop where
  anything : s.anything = false
  returns : s.returns = true → t.returns = true
  ret : s.ret.Below t.ret
  reads : s.reads.subset t.reads = true
  writes : WritesBelow s.writes t.writes

variable {s t u : Summary}

lemma le_iff (hs : s.Flat) (ht : t.Flat) : s.le t = .ok true ↔ (t.anything ∨ s.Below t) := by
  obtain ⟨b, hb, hwrites⟩ := writesBelow_eq hs.writes ht.writes
  have hle : s.le t = .ok (t.anything || (!(s.anything || (s.returns && !t.returns)) &&
      s.ret.leScalar t.ret && s.reads.subset t.reads && b)) := by
    unfold le
    rw [le_eq hs.ret ht.ret]
    cases t.anything <;> cases s.anything || (s.returns && !t.returns) <;>
      cases s.ret.leScalar t.ret <;> cases s.reads.subset t.reads <;> first | rfl | exact hb
  have hbelow : s.Below t ↔ s.anything = false ∧ (s.returns = true → t.returns = true) ∧
      s.ret.leScalar t.ret ∧ s.reads.subset t.reads ∧ b := by
    rw [← below_iff hs.ret ht.ret, hwrites]
    exact ⟨fun h => ⟨h.anything, h.returns, h.ret, h.reads, h.writes⟩,
      fun h => ⟨h.1, h.2.1, h.2.2.1, h.2.2.2.1, h.2.2.2.2⟩⟩
  rw [hle, hbelow]
  cases s.returns <;> simp [and_assoc]

lemma le_self (h : s.Flat) : s.le s = .ok true := by
  rw [le_iff h h]
  cases ha : s.anything with
  | true => exact .inl rfl
  | false => exact .inr ⟨ha, id, .refl _, subset_self _, .refl _⟩

lemma le_trans (hs : s.Flat) (ht : t.Flat) (hu : u.Flat)
    (hst : s.le t = .ok true) (htu : t.le u = .ok true) : s.le u = .ok true := by
  rw [le_iff hs ht] at hst
  rw [le_iff ht hu] at htu
  rw [le_iff hs hu]
  rcases htu with h | htu
  · exact .inl h
  rcases hst with h | hst
  · simp [htu.anything] at h
  exact .inr {
    anything := hst.anything
    returns := fun h => htu.returns (hst.returns h)
    ret := hst.ret.trans (shaped_iff.2 ht.ret) htu.ret
    reads := subset_trans hst.reads htu.reads
    writes := hst.writes.trans ht.writes htu.writes }

lemma merge_spec {f : Value → Value → Except Fault Value} (hf : Value.UpperBound f)
    {s t r : Summary} (hs : s.Flat) (ht : t.Flat) (h : merge f s t = .ok r) :
    r.Flat ∧ s.le r = .ok true ∧ t.le r = .ok true := by
  unfold merge at h
  split at h
  · cases h
    exact ⟨flat_unknown, (le_iff hs flat_unknown).2 (.inl rfl),
      (le_iff ht flat_unknown).2 (.inl rfl)⟩
  next hany =>
    simp only [Bool.or_eq_true, not_or, Bool.not_eq_true] at hany
    obtain ⟨writes, hwrites, h⟩ := bind_eq_ok.1 h
    obtain ⟨ret, hret, h⟩ := bind_eq_ok.1 h
    injection h with h
    obtain ⟨hwsc, hsw, htw⟩ := mergeM_spec hf hs.writes ht.writes hwrites
    obtain ⟨hrsc, hsr, htr⟩ := hf hs.ret ht.ret hret
    have hflat : r.Flat := h ▸ ⟨hrsc, hwsc⟩
    subst h
    refine ⟨hflat, (le_iff hs hflat).2 (.inr ?_), (le_iff ht hflat).2 (.inr ?_)⟩
    · exact ⟨hany.1, by simp +contextual, hsr, subset_iff.2 fun x hx => mem_union.2 (.inl hx), hsw⟩
    · exact ⟨hany.2, by simp +contextual, htr, subset_iff.2 fun x hx => mem_union.2 (.inr hx), htw⟩

/-- An operation whose results are flat and above both operands. -/
def UpperBound (f : Summary → Summary → Except Fault Summary) : Prop :=
  ∀ ⦃s t r : Summary⦄, s.Flat → t.Flat → f s t = .ok r →
    r.Flat ∧ s.le r = .ok true ∧ t.le r = .ok true

lemma upperBound_join : UpperBound join := fun _ _ _ => merge_spec Value.upperBound_join

lemma upperBound_widen : UpperBound widen := fun _ _ _ => merge_spec Value.upperBound_widen

lemma upperBound_widen_join : UpperBound (fun s t => do s.widen (← s.join t)) := by
  intro s t r hs ht h
  obtain ⟨u, hu, h⟩ := bind_eq_ok.1 h
  obtain ⟨huf, -, htu⟩ := upperBound_join hs ht hu
  obtain ⟨hr, hsr, hur⟩ := upperBound_widen hs huf h
  exact ⟨hr, hsr, le_trans ht huf hr htu hur⟩

end Summary

/-! ## Protecting mutexes -/

namespace Protecting

variable (p q : Protecting)

lemma le_self : p.le p := by
  cases p with
  | unwritten => rfl
  | under s => exact subset_self s

lemma le_trans {p q r : Protecting} (hpq : p.le q) (hqr : q.le r) : p.le r := by
  cases p with
  | unwritten => rfl
  | under s =>
    cases q with
    | unwritten => simp [le] at hpq
    | under t =>
      cases r with
      | unwritten => simp [le] at hqr
      | under u => exact subset_trans hqr hpq

lemma le_join_left : p.le (p.join q) := by
  cases p with
  | unwritten => rfl
  | under s =>
    cases q with
    | unwritten => exact le_self _
    | under t => exact subset_iff.2 fun x hx => (mem_inter.1 hx).1

lemma le_join_right : q.le (p.join q) := by
  cases p with
  | unwritten => exact le_self _
  | under s =>
    cases q with
    | unwritten => rfl
    | under t => exact subset_iff.2 fun x hx => (mem_inter.1 hx).2

end Protecting

/-! ## Values that fit a key -/

inductive GlobalKind where
  | state
  | value
  | parts
  | protecting
  | accesses
  | summary
deriving DecidableEq

def GlobalKey.kind : GlobalKey → GlobalKind
  | .entry _ _ => .state
  | .shared (.published _) => .value
  | .shared (.guarded _) => .value
  | .shared (.unlocked _ _) => .parts
  | .shared (.writeLocks _) => .protecting
  | .shared (.accesses _) => .accesses
  | .summary _ => .summary

namespace GlobalValue

def kind? : GlobalValue → Option GlobalKind
  | .bottom => none
  | .state _ => some .state
  | .value _ => some .value
  | .parts _ => some .parts
  | .protecting _ => some .protecting
  | .accesses _ => some .accesses
  | .summary _ => some .summary

/-- All values in it are scalar. -/
def Flat : GlobalValue → Prop
  | .state s => s.Flat
  | .value v => v.Scalar
  | .parts p => State.ScalarMap p
  | .summary s => s.Flat
  | _ => True

/-- Flat, and of a given kind unless it is bottom. -/
structure Of (kind : GlobalKind) (v : GlobalValue) : Prop where
  flat : v.Flat
  kind : ∀ k, v.kind? = some k → k = kind

lemma Of.bottom (kind : GlobalKind) : Of kind .bottom := ⟨trivial, by simp [kind?]⟩

inductive Alike : GlobalValue → GlobalValue → Prop
  | state {s t : State} (hs : s.Flat) (ht : t.Flat) : Alike (.state s) (.state t)
  | value {v w : Value} (hv : v.Scalar) (hw : w.Scalar) : Alike (.value v) (.value w)
  | parts {p q : SortedMap Part Value} (hp : State.ScalarMap p) (hq : State.ScalarMap q) :
    Alike (.parts p) (.parts q)
  | protecting (p q : Protecting) : Alike (.protecting p) (.protecting q)
  | accesses (s t : SortedSet Access) : Alike (.accesses s) (.accesses t)
  | summary {s t : Summary} (hs : s.Flat) (ht : t.Flat) : Alike (.summary s) (.summary t)

section Order

variable {kind : GlobalKind} {a b c : GlobalValue}

lemma Of.alike (ha : Of kind a) (hb : Of kind b) (ha' : a ≠ .bottom) (hb' : b ≠ .bottom) :
    Alike a b := by
  have hkind := fun k l (h : a.kind? = some k) (h' : b.kind? = some l) =>
    (ha.kind k h).trans (hb.kind l h').symm
  cases a <;> cases b <;> first
    | exact absurd rfl ha'
    | exact absurd rfl hb'
    | exact .state ha.flat hb.flat
    | exact .value ha.flat hb.flat
    | exact .parts ha.flat hb.flat
    | exact .protecting _ _
    | exact .accesses _ _
    | exact .summary ha.flat hb.flat
    | cases hkind _ _ rfl rfl

lemma le_bottom_eq (a : GlobalValue) : a.le .bottom = a.isBottom := by
  cases a <;> rfl

lemma parts_le_iff {p q : SortedMap Part Value} (hp : State.ScalarMap p)
    (hq : State.ScalarMap q) : (parts p).le (parts q) = .ok true ↔ Summary.WritesBelow p q := by
  obtain ⟨r, hr, hiff⟩ := writesBelow_eq hp hq
  have hle : (parts p).le (parts q) = .ok r := hr
  rw [← hiff, hle]
  simp

lemma value_le_iff {v w : Value} (hv : v.Scalar) (hw : w.Scalar) :
    (value v).le (value w) = .ok true ↔ v.Below w :=
  le_iff hv hw

lemma le_self (ha : Of kind a) : a.le a = .ok true := by
  by_cases ha' : a = .bottom
  · subst ha'
    rfl
  cases ha.alike ha ha' ha' with
  | state hs _ => exact le_self hs
  | value hv _ => exact (value_le_iff hv hv).2 (.refl _)
  | parts hp _ => exact (parts_le_iff hp hp).2 (.refl _)
  | protecting p _ => exact congrArg Except.ok (le_self p)
  | accesses s _ => exact congrArg Except.ok (subset_self s)
  | summary hs _ => exact le_self hs

lemma Alike.le_of_isBottom (hab : Alike a b) (h : a.isBottom = .ok true) : a.le b = .ok true := by
  cases hab with
  | state hs ht =>
    injection h with h
    rw [hs.isBottom_eq] at h
    exact (le_iff hs ht).2 (by simp_all)
  | @value v w hv hw =>
    exact (value_le_iff hv hw).2 (.void (void_of_isBottom h))
  | @parts p q hp hq =>
    injection h with h
    refine (parts_le_iff hp hq).2 fun c v hv => ?_
    rw [get?_eq_some_iff, List.isEmpty_iff.1 h] at hv
    cases hv
  | protecting p q =>
    cases p with
    | unwritten => rfl
    | under s => cases h
  | accesses s t =>
    injection h with h
    refine congrArg Except.ok (subset_iff.2 fun x hx => ?_)
    exact absurd hx (SortedSet.isEmpty_iff.1 h x)
  | summary hs ht =>
    injection h with h
    cases eq_of_beq h
    refine (le_iff hs ht).2 (.inr ⟨rfl, by simp [Summary.bottom], ?_, ?_, ?_⟩)
    · exact .void .bottom
    · exact subset_iff.2 fun x hx => absurd hx (not_mem_empty x)
    · intro c v hv
      simp [Summary.bottom] at hv

/-- Comparison of values of one kind is transitive, as long as nothing falls back to bottom. -/
lemma le_trans (ha : Of kind a) (hb : Of kind b) (hc : Of kind c)
    (hab : a.le b = .ok true) (hbc : b.le c = .ok true) (hne : c = .bottom → b = .bottom) :
    a.le c = .ok true := by
  by_cases ha' : a = .bottom
  · subst ha'
    rfl
  by_cases hb' : b = .bottom
  · subst hb'
    rw [le_bottom_eq] at hab
    by_cases hc' : c = .bottom
    · rwa [hc', le_bottom_eq]
    · exact (ha.alike hc ha' hc').le_of_isBottom hab
  have hac := hb.alike hc hb' fun h => hb' (hne h)
  cases ha.alike hb ha' hb' with
  | state hs ht =>
    cases hac with
    | state _ hu => exact le_trans hs ht hu hab hbc
  | value hv hw =>
    cases hac with
    | value _ hu =>
      rw [value_le_iff hv hw] at hab
      rw [value_le_iff hw hu] at hbc
      exact (value_le_iff hv hu).2 (hab.trans (shaped_iff.2 hw) hbc)
  | parts hp hq =>
    cases hac with
    | parts _ hr =>
      rw [parts_le_iff hp hq] at hab
      rw [parts_le_iff hq hr] at hbc
      exact (parts_le_iff hp hr).2 (hab.trans hq hbc)
  | protecting p q =>
    cases hac with
    | protecting _ r =>
      injection hab with hab
      injection hbc with hbc
      exact congrArg Except.ok (le_trans hab hbc)
  | accesses s t =>
    cases hac with
    | accesses _ u =>
      injection hab with hab
      injection hbc with hbc
      exact congrArg Except.ok (subset_trans hab hbc)
  | summary hs ht =>
    cases hac with
    | summary _ hu => exact le_trans hs ht hu hab hbc

/-! ## Joins and widenings -/

lemma merge_spec {states : State → State → Except Fault State}
    {values : Value → Value → Except Fault Value}
    {summaries : Summary → Summary → Except Fault Summary} (hst : State.UpperBound states)
    (hva : Value.UpperBound values) (hsu : Summary.UpperBound summaries) (ha : Of kind a)
    (hb : Of kind b) (h : merge states values summaries a b = .ok c) :
    Of kind c ∧ a.le c = .ok true ∧ b.le c = .ok true ∧
      (c = .bottom → a = .bottom ∧ b = .bottom) := by
  by_cases ha' : a = .bottom
  · subst ha'
    cases h
    exact ⟨hb, rfl, le_self hb, fun h => ⟨rfl, h⟩⟩
  by_cases hb' : b = .bottom
  · subst hb'
    have hc : c = a := by
      cases a <;> first | exact absurd rfl ha' | (cases h; rfl)
    subst hc
    exact ⟨ha, le_self ha, rfl, fun h => ⟨h, rfl⟩⟩
  cases ha.alike hb ha' hb' with
  | state hs ht =>
    obtain ⟨u, hu, rfl⟩ := map_eq_ok.1 h
    obtain ⟨huf, hsu, htu⟩ := hst hs ht hu
    exact ⟨⟨huf, ha.kind⟩, hsu, htu, by simp⟩
  | value hv hw =>
    obtain ⟨u, hu, rfl⟩ := map_eq_ok.1 h
    obtain ⟨huf, hvu, hwu⟩ := hva hv hw hu
    exact ⟨⟨huf, ha.kind⟩, (value_le_iff hv huf).2 hvu, (value_le_iff hw huf).2 hwu, by simp⟩
  | parts hp hq =>
    obtain ⟨u, hu, rfl⟩ := map_eq_ok.1 h
    obtain ⟨huf, hpu, hqu⟩ := mergeM_spec hva hp hq hu
    exact ⟨⟨huf, ha.kind⟩, (parts_le_iff hp huf).2 hpu, (parts_le_iff hq huf).2 hqu, by simp⟩
  | protecting p q =>
    cases h
    exact ⟨⟨trivial, ha.kind⟩, congrArg Except.ok (le_join_left p q),
      congrArg Except.ok (le_join_right p q), by simp⟩
  | accesses s t =>
    cases h
    refine ⟨⟨trivial, ha.kind⟩, congrArg Except.ok (subset_iff.2 fun x hx => ?_),
      congrArg Except.ok (subset_iff.2 fun x hx => ?_), by simp⟩
    exacts [mem_union.2 (.inl hx), mem_union.2 (.inr hx)]
  | summary hs ht =>
    obtain ⟨u, hu, rfl⟩ := map_eq_ok.1 h
    obtain ⟨huf, hsu, htu⟩ := hsu hs ht hu
    exact ⟨⟨huf, ha.kind⟩, hsu, htu, by simp⟩

lemma join_spec (ha : Of kind a) (hb : Of kind b) (h : a.join b = .ok c) :
    Of kind c ∧ a.le c = .ok true ∧ b.le c = .ok true ∧ (c = .bottom → a = .bottom ∧ b = .bottom) :=
  merge_spec upperBound_join upperBound_join upperBound_join ha hb h

lemma widen_spec (ha : Of kind a) (hb : Of kind b) (h : a.widen b = .ok c) :
    Of kind c ∧ a.le c = .ok true ∧ b.le c = .ok true ∧ (c = .bottom → a = .bottom ∧ b = .bottom) :=
  merge_spec upperBound_widen_join upperBound_widen_join upperBound_widen_join
    ha hb h

end Order
end GlobalValue

/-- What may be stored under a key. -/
def GlobalKey.Fits (key : GlobalKey) (v : GlobalValue) : Prop := GlobalValue.Of key.kind v

end StaticAnalysis
