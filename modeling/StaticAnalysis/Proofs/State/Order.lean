import StaticAnalysis.Proofs.Memory.Values
import StaticAnalysis.State.Lattice

/-!
# Order of states

`StoreUnder` is the order of states without their relations, component by component, and `Merged`
says what a join or a widening of two reachable states is.  If the values of each cell have one
shape, the merged state is above both.

A state is *flat* if all its values are scalar and it keeps no relations.  Comparison of flat states
never faults and is a preorder (`State.le_trans`), joins and widenings are upper bounds that are
flat again (`State.merge_spec`), and narrowing by a smaller state keeps that state enclosed
(`State.narrow_spec`).
-/

namespace StaticAnalysis

open Fault Option SortedMap SortedSet Value LockSet

/-! ## Held mutexes -/

namespace LockSet

lemma le_iff {l m : LockSet} : l.le m ↔
    (∀ mutex d, m.must.get? mutex = some d → ∃ e, l.must.get? mutex = some e ∧ d ≤ e) ∧
      ∀ mutex ∈ l.may, mutex ∈ m.may := by
  simp only [le, Bool.and_eq_true, subset_iff, List.all_eq_true]
  refine and_congr_left' ⟨fun h mutex d hd => ?_, fun h ⟨mutex, d⟩ hmem => ?_⟩
  · have := h _ (get?_eq_some_iff.1 hd)
    dsimp only at this
    split at this
    next e he => exact ⟨e, he, of_decide_eq_true this⟩
    next => cases this
  · obtain ⟨e, he, hde⟩ := h mutex d (get?_eq_some_iff.2 hmem)
    simp [he, hde]

lemma le_self (l : LockSet) : l.le l :=
  le_iff.2 ⟨fun _ d h => ⟨d, h, d.le_refl⟩, fun _ h => h⟩

lemma le_trans {l m n : LockSet} (hlm : l.le m) (hmn : m.le n) : l.le n := by
  rw [le_iff] at *
  refine ⟨fun mutex d hd => ?_, fun mutex h => hmn.2 mutex (hlm.2 mutex h)⟩
  obtain ⟨e, he, hde⟩ := hmn.1 mutex d hd
  obtain ⟨f, hf, hef⟩ := hlm.1 mutex e he
  exact ⟨f, hf, UInt32.le_trans hde hef⟩

lemma must_join {l m : LockSet} {mutex : String} {d : UInt32}
    (h : (l.join m).must.get? mutex = some d) :
    ∃ e f, l.must.get? mutex = some e ∧ m.must.get? mutex = some f ∧ d = min e f := by
  have hmem := mem_of_get?_ofList h
  simp only [List.mem_filterMap, map_eq_some_iff, Prod.mk.injEq, Prod.exists] at hmem
  obtain ⟨mutex', e, he, f, hf, rfl, rfl⟩ := hmem
  exact ⟨e, f, get?_eq_some_iff.2 he, hf, rfl⟩

lemma le_join_left (l m : LockSet) : l.le (l.join m) := by
  refine le_iff.2 ⟨fun mutex d hd => ?_, fun mutex h => mem_union.2 (.inl h)⟩
  obtain ⟨e, f, he, -, rfl⟩ := must_join hd
  exact ⟨e, he, Std.min_le_left⟩

lemma le_join_right (l m : LockSet) : m.le (l.join m) := by
  refine le_iff.2 ⟨fun mutex d hd => ?_, fun mutex h => mem_union.2 (.inr h)⟩
  obtain ⟨e, f, -, hf, rfl⟩ := must_join hd
  exact ⟨f, hf, Std.min_le_right⟩

lemma get?_join {l m : LockSet} {mutex : String} {e f : UInt32} (he : l.must.get? mutex = some e)
    (hf : m.must.get? mutex = some f) : (l.join m).must.get? mutex = some (min e f) := by
  have hmem : (mutex, min e f) ∈ l.must.entries.filterMap fun p =>
      (m.must.get? p.1).map fun e => (p.1, min p.2 e) :=
    List.mem_filterMap.2 ⟨(mutex, e), get?_eq_some_iff.1 he, by simp [hf]⟩
  obtain ⟨d, hd⟩ := exists_get?_ofList hmem
  obtain ⟨e', f', he', hf', rfl⟩ := must_join hd
  rw [he] at he'
  rw [hf] at hf'
  cases he'
  cases hf'
  exact hd

lemma le_join_comm (l m : LockSet) : (l.join m).le (m.join l) := by
  refine le_iff.2 ⟨fun mutex d hd => ?_, fun mutex h => ?_⟩
  · obtain ⟨e, f, he, hf, rfl⟩ := must_join hd
    exact ⟨_, get?_join hf he, Std.le_min_iff.2 ⟨Std.min_le_right, Std.min_le_left⟩⟩
  · exact mem_union.2 (mem_union.1 h).symm

end LockSet

namespace State

variable {T : Set Target} {f : Value → Value → Except Fault Value}
  {g : Relation → Relation → Relation} {s t u r : State}

/-! ## Maps of values -/

variable {b : Bool} {c : Cell} {v : Value}

section Values

variable {κ : Type} [Ord κ] {τ : κ → List (Option Int)} {m₁ m₂ m₃ : SortedMap κ Value}

def Fits (T : Set Target) (τ : κ → List (Option Int)) (m : SortedMap κ Value) : Prop :=
  ∀ k v, m.get? k = some v → Value.Shaped T (τ k) v

/-- Each listed value of the second map has a value below it in the first. -/
def ValuesUnder (m₁ m₂ : SortedMap κ Value) : Prop :=
  ∀ k w, m₂.get? k = some w → ∃ v, m₁.get? k = some v ∧ v.Below w

lemma ValuesUnder.refl (m : SortedMap κ Value) : ValuesUnder m m :=
  fun _ w hw => ⟨w, hw, .refl w⟩

lemma ValuesUnder.trans (h₁₂ : ValuesUnder m₁ m₂) (hfits : Fits T τ m₂)
    (h₂₃ : ValuesUnder m₂ m₃) : ValuesUnder m₁ m₃ := by
  intro k w hw
  obtain ⟨v, hv, hvw⟩ := h₂₃ k w hw
  obtain ⟨x, hx, hxv⟩ := h₁₂ k v hv
  exact ⟨x, hx, hxv.trans (hfits k v hv) hvw⟩

variable [Std.TransOrd κ] [Std.LawfulEqOrd κ]

lemma entriesLe_eq_true (h : ValuesUnder m₁ m₂) (hb : entriesLe m₁ m₂ = .ok b) : b := by
  by_contra hne
  rw [Bool.not_eq_true] at hne
  subst hne
  obtain ⟨⟨k, w⟩, hmem, hfalse⟩ := Segmented.exists_of_allM_false hb
  obtain ⟨v, hv, hvw⟩ := h k w (get?_eq_some_iff.2 hmem)
  simp only [hv] at hfalse
  exact absurd (eq_true_of_below hvw hfalse) (by simp)

lemma get?_mergeValues {keepTop : κ → Bool} {m : SortedMap κ Value} {k : κ} {u : Value}
    (h : mergeValues f keepTop m₁ m₂ = .ok m) (hu : m.get? k = some u) :
    ∃ v w, m₁.get? k = some v ∧ m₂.get? k = some w ∧ f v w = .ok u := by
  rcases get?_filterMapM h k with ⟨-, hnone⟩ | ⟨v, hv, hf⟩
  · rw [hnone] at hu
    cases hu
  · rw [hu] at hf
    split at hf
    next w hw =>
      obtain ⟨u', hu', hf⟩ := bind_eq_ok.1 hf
      obtain ⟨b, -, hf⟩ := bind_eq_ok.1 hf
      injection hf with hf
      split at hf
      · cases hf
        exact ⟨v, w, hv, hw, hu'⟩
      · cases hf
    next => cases hf

lemma mergeValues_bounds (hf : ∀ k, Value.Bounds T (τ k) f) {keepTop : κ → Bool}
    {m : SortedMap κ Value} (h₁ : Fits T τ m₁) (h₂ : Fits T τ m₂)
    (h : mergeValues f keepTop m₁ m₂ = .ok m) :
    Fits T τ m ∧ ValuesUnder m₁ m ∧ ValuesUnder m₂ m := by
  have hall : ∀ k u, m.get? k = some u → Value.Shaped T (τ k) u ∧
      (∃ v, m₁.get? k = some v ∧ v.Below u) ∧ ∃ w, m₂.get? k = some w ∧ w.Below u := by
    intro k u hu
    obtain ⟨v, w, hv, hw, hvw⟩ := get?_mergeValues h hu
    obtain ⟨hshaped, hle, hle'⟩ := hf k (h₁ k v hv) (h₂ k w hw) hvw
    exact ⟨hshaped, ⟨v, hv, hle⟩, ⟨w, hw, hle'⟩⟩
  exact ⟨fun k u hu => (hall k u hu).1, fun k u hu => (hall k u hu).2.1,
    fun k u hu => (hall k u hu).2.2⟩

end Values

/-! ## Copies -/

section Copies

variable {σ : Cell → List (Option Int)} {m m₁ m₂ m₃ : SortedMap Cell PrivateCopy}

def CopiesFit (T : Set Target) (σ : Cell → List (Option Int)) (m : SortedMap Cell PrivateCopy) :
    Prop :=
  ∀ c p, m.get? c = some p → Value.Shaped T (σ c) p.value

/-- One copy is below another; no copy is below an inexact one. -/
def CopyUnder : Option PrivateCopy → Option PrivateCopy → Prop
  | some p, some q => p.value.Below q.value ∧ (q.exact = true → p.exact = true)
  | none, some q => q.exact = false
  | some _, none => False
  | none, none => True

def CopiesUnder (m₁ m₂ : SortedMap Cell PrivateCopy) : Prop :=
  ∀ c, CopyUnder (m₁.get? c) (m₂.get? c)

lemma CopyUnder.refl (o : Option PrivateCopy) : CopyUnder o o := by
  cases o with
  | none => trivial
  | some p => exact ⟨.refl _, id⟩

lemma CopiesUnder.trans (h₁₂ : CopiesUnder m₁ m₂) (hfit : CopiesFit T σ m₂)
    (h₂₃ : CopiesUnder m₂ m₃) : CopiesUnder m₁ m₃ := by
  intro c
  have hab := h₁₂ c
  have hbc := h₂₃ c
  have hb := hfit c
  revert hab hbc hb
  rcases m₁.get? c with _ | p <;> rcases m₂.get? c with _ | q <;> rcases m₃.get? c with _ | r <;>
    intro hab hbc hb
  case some.some.some => exact ⟨hab.1.trans (hb q rfl) hbc.1, fun hr => hab.2 (hbc.2 hr)⟩
  all_goals simp_all [CopyUnder]

lemma copiesLe_eq_true (h : CopiesUnder m₁ m₂) (hb : copiesLe m₁ m₂ = .ok b) : b := by
  by_contra hne
  rw [Bool.not_eq_true] at hne
  subst hne
  obtain ⟨c, -, hfalse⟩ := Segmented.exists_of_allM_false hb
  have hc := h c
  revert hc hfalse
  rcases m₁.get? c with _ | p <;> rcases m₂.get? c with _ | q <;> intro hfalse hc
  case some.some =>
    obtain ⟨b, hb, hfalse⟩ := bind_eq_ok.1 hfalse
    rw [eq_true_of_below hc.1 hb] at hfalse
    have hexact := hc.2
    injection hfalse with hfalse
    cases hp : p.exact <;> cases hq : q.exact <;> simp_all
  all_goals simp_all [copyLe, CopyUnder]

lemma get?_mergeCopies {s t r : SortedMap Cell PrivateCopy} (h : mergeCopies f s t = .ok r)
    (c : Cell) :
    match s.get? c, t.get? c with
    | some p, some q => ∃ u, f p.value q.value = .ok u ∧ r.get? c = some ⟨u, p.exact && q.exact⟩
    | some p, none => r.get? c = some ⟨p.value, false⟩
    | none, some q => r.get? c = some ⟨q.value, false⟩
    | none, none => r.get? c = none := by
  obtain ⟨both, hboth, h⟩ := bind_eq_ok.1 h
  cases h
  have hrest := get?_foldl_insert (fun q : PrivateCopy => (⟨q.value, false⟩ : PrivateCopy))
    (t.filter fun c _ => !s.contains c).sorted both c
  rw [show SortedMap.lookup c _ = _ from get?_filter (fun c _ => !s.contains c) t c] at hrest
  rcases get?_filterMapM hboth c with ⟨hs, hb⟩ | ⟨p, hs, hf⟩ <;> rw [hs]
  · cases ht : t.get? c with
    | none =>
      rw [ht] at hrest
      exact hrest.trans hb
    | some q =>
      rw [ht, filter_some, if_pos (by simpa [SortedMap.contains] using hs)] at hrest
      exact hrest
  · have hnone : (t.get? c).filter (fun _ => !s.contains c) = none := by
      simp [SortedMap.contains, hs]
    rw [hnone] at hrest
    cases ht : t.get? c with
    | none =>
      rw [ht] at hf
      exact hrest.trans (Except.ok.inj hf).symm
    | some q =>
      rw [ht] at hf
      obtain ⟨u, hu, hf⟩ := bind_eq_ok.1 hf
      exact ⟨u, hu, hrest.trans (Except.ok.inj hf).symm⟩

lemma mergeCopies_bounds (hf : ∀ c, Value.Bounds T (σ c) f) (h₁ : CopiesFit T σ m₁)
    (h₂ : CopiesFit T σ m₂) (h : mergeCopies f m₁ m₂ = .ok m) :
    CopiesFit T σ m ∧ CopiesUnder m₁ m ∧ CopiesUnder m₂ m := by
  have hall : ∀ c, (∀ p, m.get? c = some p → Value.Shaped T (σ c) p.value) ∧
      CopyUnder (m₁.get? c) (m.get? c) ∧ CopyUnder (m₂.get? c) (m.get? c) := by
    intro c
    have hc := get?_mergeCopies h c
    have hs := h₁ c
    have ht := h₂ c
    revert hc hs ht
    rcases m₁.get? c with _ | p <;> rcases m₂.get? c with _ | q
    case some.some =>
      rintro ⟨u, hu, hc⟩ hs ht
      rw [hc]
      obtain ⟨hshaped, hle, hle'⟩ := hf _ (hs p rfl) (ht q rfl) hu
      exact ⟨by rintro p ⟨rfl⟩; exact hshaped, ⟨hle, by simp +contextual⟩,
        ⟨hle', by simp +contextual⟩⟩
    all_goals
      intro hc hs ht
      simp_all [CopyUnder, Below.refl]
  exact ⟨fun c => (hall c).1, fun c => (hall c).2.1, fun c => (hall c).2.2⟩

lemma addGlobals_bounds (hf : ∀ c, Value.Bounds T (σ c) f) {single : State}
    (hsingle : Fits T σ single.cells) (h₁ : CopiesFit T σ m₁)
    (h : addGlobals f single m₁ = .ok m) : CopiesFit T σ m ∧ CopiesUnder m₁ m := by
  refine foldlM_induct ?_ ⟨h₁, fun c => .refl _⟩ h
  rintro m ⟨c, v⟩ m' hmem ⟨hfit, hunder⟩ hstep
  obtain ⟨u, hu, hstep⟩ := bind_eq_ok.1 hstep
  cases hstep
  have hv : Value.Shaped T (σ c) v := by
    have := get?_eq_some_iff.2 hmem
    rw [get?_filter, filter_eq_some_iff] at this
    exact hsingle c v this.1
  have hold : Value.Shaped T (σ c) ((m.get? c).elim Value.bottom (·.value)) := by
    cases hc : m.get? c with
    | none => exact .bottom
    | some p => exact hfit c p hc
  obtain ⟨hshaped, hle, -⟩ := hf _ hold hv hu
  refine ⟨fun d p hp => ?_, hunder.trans hfit fun d => ?_⟩
  · rw [get?_insert] at hp
    split at hp
    next hd =>
      cases hp
      exact hd ▸ hshaped
    next => exact hfit d p hp
  · rw [get?_insert]
    split
    next hd =>
      subst hd
      cases hc : m.get? d with
      | none => rfl
      | some p =>
        rw [hc] at hle
        exact ⟨hle, by simp⟩
    next => exact .refl _

end Copies

/-! ## Comparison -/

/-- All components of one state but the relation are below those of another. -/
structure StoreUnder (s t : State) : Prop where
  cells : ValuesUnder s.cells t.cells
  kept : ValuesUnder s.kept t.kept
  copies : CopiesUnder s.copies t.copies
  locks : s.locks.le t.locks = true
  multithreaded : s.multithreaded = true → t.multithreaded = true
  created : ∀ i ∈ s.created, i ∈ t.created
  joined : ∀ i ∈ t.joined, i ∈ s.joined
  escaped : ∀ c ∈ s.escaped, c ∈ t.escaped

lemma StoreUnder.refl (s : State) : StoreUnder s s where
  cells := .refl _
  kept := .refl _
  copies _ := .refl _
  locks := le_self _
  multithreaded := id
  created _ := id
  joined _ := id
  escaped _ := id

lemma le_ne_false (h : s.isBottom = false →
    t.isBottom = false ∧ s.relation.le t.relation ∧ StoreUnder s t) : s.le t ≠ .ok false := by
  intro hle
  unfold le at hle
  cases hs : s.isBottom with
  | true => simp [hs] at hle
  | false =>
    obtain ⟨ht, hrel, hstore⟩ := h hs
    simp only [hs, ht] at hle
    obtain ⟨cells, hcells, hle⟩ := bind_eq_ok.1 hle
    obtain ⟨kept, hkept, hle⟩ := bind_eq_ok.1 hle
    obtain ⟨copies, hcopies, hle⟩ := bind_eq_ok.1 hle
    have hmulti : (!s.multithreaded || t.multithreaded) = true := by
      cases hsm : s.multithreaded with
      | false => rfl
      | true => exact hstore.multithreaded hsm
    rw [entriesLe_eq_true hstore.cells hcells, entriesLe_eq_true hstore.kept hkept,
      copiesLe_eq_true hstore.copies hcopies, hrel, hstore.locks, hmulti,
      subset_iff.2 hstore.created, subset_iff.2 hstore.joined,
      subset_iff.2 hstore.escaped] at hle
    cases hle

/-- The values of each cell have one shape. -/
structure StoreFits (T : Set Target) (σ : Cell → List (Option Int)) (s : State) : Prop where
  cells : Fits T σ s.cells
  kept : Fits T (fun k => σ k.cell) s.kept
  copies : CopiesFit T σ s.copies

variable {σ : Cell → List (Option Int)}

lemma StoreUnder.trans (hst : StoreUnder s t) (ht : t.StoreFits T σ) (htu : StoreUnder t u) :
    StoreUnder s u where
  cells := hst.cells.trans ht.cells htu.cells
  kept := hst.kept.trans ht.kept htu.kept
  copies := hst.copies.trans ht.copies htu.copies
  locks := le_trans hst.locks htu.locks
  multithreaded h := htu.multithreaded (hst.multithreaded h)
  created x h := htu.created x (hst.created x h)
  joined x h := hst.joined x (htu.joined x h)
  escaped x h := htu.escaped x (hst.escaped x h)

/-! ## Merging -/

/-- What the merge of two reachable states is. -/
structure Merged (f : Value → Value → Except Fault Value) (g : Relation → Relation → Relation)
    (s t r : State) : Prop where
  reachable : r.reachable = true
  cells : mergeValues f Cell.isGlobal s.cells t.cells = .ok r.cells
  kept : mergeValues f (fun _ => false) s.kept t.kept = .ok r.kept
  copies : ∃ copies, mergeCopies f s.copies t.copies = .ok copies ∧
    (if s.multithreaded = t.multithreaded then pure copies
      else addGlobals f (if s.multithreaded then t else s) copies) = .ok r.copies
  relation : r.relation = g s.relation t.relation
  locks : r.locks = s.locks.join t.locks
  multithreaded : r.multithreaded = (s.multithreaded || t.multithreaded)
  created : r.created = s.created.union t.created
  joined : r.joined = s.joined.inter t.joined
  escaped : r.escaped = s.escaped.union t.escaped

lemma merge_cases (h : merge f g s t = .ok r) : (s.reachable = false ∧ r = t) ∨
    (s.reachable ∧ t.reachable = false ∧ r = s) ∨
      (s.reachable ∧ t.reachable ∧ Merged f g s t r) := by
  unfold merge at h
  cases hs : s.reachable with
  | false =>
    simp only [hs, Bool.not_false, if_true] at h
    cases h
    exact .inl ⟨rfl, rfl⟩
  | true =>
  cases ht : t.reachable with
  | false =>
    simp only [hs, ht, Bool.not_false, Bool.not_true, if_true] at h
    cases h
    exact .inr (.inl ⟨rfl, rfl, rfl⟩)
  | true =>
    simp only [hs, ht, Bool.not_true] at h
    obtain ⟨copies₀, hcopies₀, h⟩ := bind_eq_ok.1 h
    refine .inr (.inr ⟨rfl, rfl, ?_⟩)
    split at h
    all_goals
      rename_i hsame
      obtain ⟨copies, hcopies, h⟩ := bind_eq_ok.1 h
      obtain ⟨cells, hcells, h⟩ := bind_eq_ok.1 h
      obtain ⟨kept, hkept, h⟩ := bind_eq_ok.1 h
      cases h
      exact ⟨rfl, hcells, hkept, ⟨_, hcopies₀, by simpa [hsame] using hcopies⟩, rfl, rfl, rfl, rfl,
        rfl, rfl⟩

lemma Merged.bounds (hf : ∀ c, Value.Bounds T (σ c) f) (hs : s.StoreFits T σ) (ht : t.StoreFits T σ)
    (h : Merged f g s t r) : r.StoreFits T σ ∧ StoreUnder s r ∧ StoreUnder t r := by
  obtain ⟨hcells, hsc, htc⟩ := mergeValues_bounds hf hs.cells ht.cells h.cells
  obtain ⟨hkept, hsk, htk⟩ := mergeValues_bounds (fun k => hf k.cell) hs.kept ht.kept h.kept
  obtain ⟨copies, hmerge, hcopies⟩ := h.copies
  obtain ⟨hfit, hsp, htp⟩ := mergeCopies_bounds hf hs.copies ht.copies hmerge
  obtain ⟨hfit', hgrow⟩ : CopiesFit T σ r.copies ∧ CopiesUnder copies r.copies := by
    split at hcopies
    · cases hcopies
      exact ⟨hfit, fun c => .refl _⟩
    · exact addGlobals_bounds hf (by split; exacts [ht.cells, hs.cells]) hfit hcopies
  refine ⟨⟨hcells, hkept, hfit'⟩, ?_, ?_⟩
  · refine ⟨hsc, hsk, hsp.trans hfit hgrow, ?_, ?_, ?_, ?_, ?_⟩
    · exact h.locks ▸ le_join_left _ _
    · exact fun hm => by rw [h.multithreaded, hm, Bool.true_or]
    · exact fun i hi => h.created ▸ mem_union.2 (.inl hi)
    · exact fun i hi => (mem_inter.1 (h.joined ▸ hi)).1
    · exact fun c hc => h.escaped ▸ mem_union.2 (.inl hc)
  · refine ⟨htc, htk, htp.trans hfit hgrow, ?_, ?_, ?_, ?_, ?_⟩
    · exact h.locks ▸ le_join_right _ _
    · exact fun hm => by rw [h.multithreaded, hm, Bool.or_true]
    · exact fun i hi => h.created ▸ mem_union.2 (.inr hi)
    · exact fun i hi => (mem_inter.1 (h.joined ▸ hi)).2
    · exact fun c hc => h.escaped ▸ mem_union.2 (.inr hc)

/-! ## Flat states -/

def ScalarMap {κ : Type} [Ord κ] (m : SortedMap κ Value) : Prop :=
  ∀ k v, m.get? k = some v → v.Scalar

/-- Every value of a state is scalar, and no relations are kept. -/
structure Flat (s : State) : Prop where
  cells : ScalarMap s.cells
  copies : ∀ c p, s.copies.get? c = some p → p.value.Scalar
  kept : ScalarMap s.kept
  relation : s.relation = .none

lemma flat_unknown : (unknown .none).Flat where
  cells _ _ h := by simp [unknown] at h
  copies _ _ h := by simp [unknown] at h
  kept _ _ h := by simp [unknown] at h
  relation := rfl

lemma flat_unreachable : unreachable.Flat where
  cells _ _ h := by simp [unreachable, unknown] at h
  copies _ _ h := by simp [unreachable, unknown] at h
  kept _ _ h := by simp [unreachable, unknown] at h
  relation := rfl

lemma Flat.isBottom_eq (h : s.Flat) : s.isBottom = !s.reachable := by
  simp [isBottom, h.relation, Relation.isBottom]

lemma Flat.get (h : s.Flat) (c : Cell) : (s.get c).Scalar := by
  unfold State.get SortedMap.getD
  cases hc : s.cells.get? c with
  | none => trivial
  | some v => exact h.cells c v hc

/-! ## Comparison of flat states -/

lemma entriesLe_eq {κ : Type} [Ord κ] [Std.TransOrd κ] [Std.LawfulEqOrd κ]
    {m₁ m₂ : SortedMap κ Value} (h₁ : ScalarMap m₁) (h₂ : ScalarMap m₂) :
    ∃ b, entriesLe m₁ m₂ = .ok b ∧ (b ↔ ValuesUnder m₁ m₂) := by
  have hall : (∀ e ∈ m₂.entries, ∃ v, m₁.get? e.1 = some v ∧ v.Below e.2) ↔ ValuesUnder m₁ m₂ :=
    ⟨fun h k w hw => h (k, w) (get?_eq_some_iff.1 hw),
      fun h e he => h e.1 e.2 (get?_eq_some_iff.2 he)⟩
  rw [← hall]
  refine exists_allM fun e he => ?_
  dsimp only
  cases hv : m₁.get? e.1 with
  | none => exact ⟨false, rfl, by simp⟩
  | some v =>
    have hv := h₁ _ v hv
    have hw := h₂ _ _ (get?_eq_some_iff.2 he)
    exact ⟨_, le_eq hv hw, by simp [below_iff hv hw]⟩

lemma copiesLe_eq {m₁ m₂ : SortedMap Cell PrivateCopy}
    (h₁ : ∀ c p, m₁.get? c = some p → p.value.Scalar)
    (h₂ : ∀ c p, m₂.get? c = some p → p.value.Scalar) :
    ∃ b, copiesLe m₁ m₂ = .ok b ∧ (b ↔ CopiesUnder m₁ m₂) := by
  have hall : (∀ c ∈ m₁.keys ++ m₂.keys, CopyUnder (m₁.get? c) (m₂.get? c)) ↔
      CopiesUnder m₁ m₂ := by
    refine ⟨fun h c => ?_, fun h c _ => h c⟩
    by_cases hc : c ∈ m₁.keys ++ m₂.keys
    · exact h c hc
    · rw [List.mem_append, not_or] at hc
      rw [get?_eq_none hc.1, get?_eq_none hc.2]
      trivial
  rw [← hall]
  refine exists_allM fun c _ => ?_
  cases hp : m₁.get? c with
  | none => cases hq : m₂.get? c <;> exact ⟨_, rfl, by simp [CopyUnder]⟩
  | some p =>
    cases hq : m₂.get? c with
    | none => exact ⟨false, rfl, by simp [CopyUnder]⟩
    | some q =>
      have hp := h₁ c p hp
      have hq := h₂ c q hq
      simp only [copyLe, le_eq hp hq]
      refine ⟨_, rfl, ?_⟩
      rw [CopyUnder, below_iff hp hq]
      cases p.exact <;> cases q.exact <;> simp

/-- Comparison of flat states never faults, and compares component by component. -/
lemma le_eq (hs : s.Flat) (ht : t.Flat) :
    ∃ b, s.le t = .ok b ∧ (b ↔ (s.reachable → t.reachable ∧ StoreUnder s t)) := by
  unfold le
  rw [hs.isBottom_eq, ht.isBottom_eq]
  cases hsr : s.reachable with
  | false => exact ⟨true, rfl, by simp⟩
  | true =>
    cases htr : t.reachable with
    | false => exact ⟨false, rfl, by simp⟩
    | true =>
      obtain ⟨b₁, h₁, hb₁⟩ := entriesLe_eq hs.cells ht.cells
      obtain ⟨b₂, h₂, hb₂⟩ := entriesLe_eq hs.kept ht.kept
      obtain ⟨b₃, h₃, hb₃⟩ := copiesLe_eq hs.copies ht.copies
      rw [h₁, h₂, h₃]
      refine ⟨_, rfl, ?_⟩
      have hrel : s.relation.le t.relation = true := by
        rw [hs.relation, ht.relation]
        rfl
      simp only [hrel, Bool.and_true, Bool.and_eq_true, hb₁, hb₂, hb₃, subset_iff,
        forall_const, true_and]
      constructor
      · rintro ⟨⟨⟨⟨⟨⟨⟨h₁, h₂⟩, h₃⟩, hl⟩, hm⟩, hc⟩, hj⟩, he⟩
        exact ⟨h₁, h₂, h₃, hl, by simpa [or_iff_not_imp_left] using hm, hc, hj, he⟩
      · rintro ⟨h₁, h₂, h₃, hl, hm, hc, hj, he⟩
        exact ⟨⟨⟨⟨⟨⟨⟨h₁, h₂⟩, h₃⟩, hl⟩, by simpa [or_iff_not_imp_left] using hm⟩, hc⟩, hj⟩, he⟩

lemma le_iff (hs : s.Flat) (ht : t.Flat) :
    s.le t = .ok true ↔ (s.reachable → t.reachable ∧ StoreUnder s t) := by
  obtain ⟨b, hb, hiff⟩ := le_eq hs ht
  rw [hb, ← hiff]
  simp

lemma flat_iff : s.Flat ↔ s.StoreFits Set.univ (fun _ => []) ∧ s.relation = .none := by
  constructor
  · intro h
    exact ⟨⟨fun c v hv => shaped_iff.2 (h.cells c v hv),
      fun k v hv => shaped_iff.2 (h.kept k v hv),
      fun c p hp => shaped_iff.2 (h.copies c p hp)⟩, h.relation⟩
  · rintro ⟨h, hrelation⟩
    exact ⟨fun c v hv => shaped_iff.1 (h.cells c v hv),
      fun c p hp => shaped_iff.1 (h.copies c p hp),
      fun k v hv => shaped_iff.1 (h.kept k v hv), hrelation⟩

lemma le_self (h : s.Flat) : s.le s = .ok true :=
  (le_iff h h).2 fun hr => ⟨hr, .refl s⟩

lemma le_trans (hs : s.Flat) (ht : t.Flat) (hu : u.Flat)
    (hst : s.le t = .ok true) (htu : t.le u = .ok true) : s.le u = .ok true := by
  rw [le_iff hs ht] at hst
  rw [le_iff ht hu] at htu
  rw [le_iff hs hu]
  intro hr
  obtain ⟨htr, hst⟩ := hst hr
  obtain ⟨hur, htu⟩ := htu htr
  exact ⟨hur, hst.trans (flat_iff.1 ht).1 htu⟩

lemma merge_spec (hf : Value.UpperBound f) (hrel : g .none .none = .none) (hs : s.Flat)
    (ht : t.Flat) (h : merge f g s t = .ok r) : r.Flat ∧ s.le r = .ok true ∧ t.le r = .ok true := by
  rcases merge_cases h with ⟨hsr, rfl⟩ | ⟨-, htr, rfl⟩ | ⟨-, -, h⟩
  · exact ⟨ht, (le_iff hs ht).2 (by simp [hsr]), le_self ht⟩
  · exact ⟨hs, le_self hs, (le_iff ht hs).2 (by simp [htr])⟩
  · obtain ⟨hr, hsr, htr⟩ :=
      h.bounds (fun _ => upperBound_iff.1 hf) (flat_iff.1 hs).1 (flat_iff.1 ht).1
    have hflat : r.Flat := flat_iff.2 ⟨hr, by rw [h.relation, hs.relation, ht.relation, hrel]⟩
    exact ⟨hflat, (le_iff hs hflat).2 fun _ => ⟨h.reachable, hsr⟩,
      (le_iff ht hflat).2 fun _ => ⟨h.reachable, htr⟩⟩

/-- An operation whose results are flat and above both operands. -/
def UpperBound (f : State → State → Except Fault State) : Prop :=
  ∀ ⦃s t r : State⦄, s.Flat → t.Flat → f s t = .ok r →
    r.Flat ∧ s.le r = .ok true ∧ t.le r = .ok true

lemma upperBound_join : UpperBound join := fun _ _ _ => merge_spec Value.upperBound_join rfl

lemma upperBound_widen : UpperBound widen := fun _ _ _ => merge_spec Value.upperBound_widen rfl

lemma upperBound_widen_join : UpperBound (fun s t => do s.widen (← s.join t)) := by
  intro s t r hs ht h
  obtain ⟨u, hu, h⟩ := bind_eq_ok.1 h
  obtain ⟨huf, -, htu⟩ := upperBound_join hs ht hu
  obtain ⟨hr, hsr, hur⟩ := upperBound_widen hs huf h
  exact ⟨hr, hsr, le_trans ht huf hr htu hur⟩

/-! ## Narrowing -/

lemma set_spec (h : s.set c v = .ok r) : ∃ cells, r = { s with cells } ∧
    (∀ d w, cells.get? d = some w → (d = c ∧ w = v) ∨ (d ≠ c ∧ s.cells.get? d = some w)) := by
  obtain ⟨b, -, h⟩ := bind_eq_ok.1 h
  cases h
  refine ⟨_, rfl, fun d w hw => ?_⟩
  split at hw
  · rw [get?_erase] at hw
    split at hw
    next => cases hw
    next hd => exact .inr ⟨hd, hw⟩
  · rw [get?_insert] at hw
    split at hw
    next hd =>
      cases hw
      exact .inl ⟨hd, rfl⟩
    next hd => exact .inr ⟨hd, hw⟩

/-- What holds of the cells of a state and of a stored value holds of the cells after the store. -/
lemma set_induct {P : Cell → Value → Prop} (h : s.set c v = .ok r) (hv : P c v)
    (hs : ∀ d w, s.cells.get? d = some w → P d w) : ∃ cells, r = { s with cells } ∧ ∀ d w,
    cells.get? d =
    some w → P d w := by
  obtain ⟨cells, rfl, hcells⟩ := set_spec h
  refine ⟨cells, rfl, fun d w hw => ?_⟩
  rcases hcells d w hw with ⟨rfl, rfl⟩ | ⟨-, hw⟩
  exacts [hv, hs d w hw]

lemma flat_set (hs : s.Flat) (hv : v.Scalar) (h : s.set c v = .ok r) : r.Flat := by
  obtain ⟨cells, rfl, hcells⟩ := set_induct h hv hs.cells
  exact ⟨hcells, hs.copies, hs.kept, hs.relation⟩

/-- The cells that a narrowing of `s` by `t` may end with. -/
def Narrowed (s t : State) (cells : SortedMap Cell Value) : Prop :=
  ∀ c u, cells.get? c = some u → t.cells.get? c = some u ∨ ∃ v, s.cells.get? c = some v ∧
    (t.cells.get? c = none ∧ u = v ∨ ∃ w, t.cells.get? c = some w ∧ v.narrow w = .ok u)

lemma narrow_cases (h : s.narrow t = .ok r) :
    r = t ∨ ∃ cells, r = { t with cells, relation := s.relation.narrow t.relation } ∧
      Narrowed s t cells := by
  unfold narrow at h
  split at h
  · cases h
    exact .inl rfl
  obtain ⟨u, hu, h⟩ := bind_eq_ok.1 h
  cases h
  -- Each round replaces the value of one cell by a narrowed one.
  suffices hround : ∃ cells, u = { t with cells } ∧ Narrowed s t cells by
    obtain ⟨cells, rfl, hcells⟩ := hround
    exact .inr ⟨cells, rfl, hcells⟩
  refine foldlM_induct ?_ ⟨t.cells, rfl, fun _ _ h => .inl h⟩ hu
  rintro _ ⟨c, v⟩ u' hmem ⟨cells, rfl, hcells⟩ hstep
  have hv := get?_eq_some_iff.2 hmem
  obtain ⟨n, hstep, hn⟩ : ∃ n, State.set { t with cells } c n = .ok u' ∧
      (t.cells.get? c = none ∧ n = v ∨ ∃ w, t.cells.get? c = some w ∧ v.narrow w = .ok n) := by
    cases hw : t.cells.get? c with
    | none =>
      simp only [hw] at hstep
      exact ⟨v, hstep, .inl ⟨rfl, rfl⟩⟩
    | some w =>
      simp only [hw] at hstep
      obtain ⟨n, hn, hstep⟩ := bind_eq_ok.1 hstep
      exact ⟨n, hstep, .inr ⟨w, rfl, hn⟩⟩
  obtain ⟨cells', rfl, hset⟩ := set_spec hstep
  refine ⟨cells', rfl, fun d x hx => ?_⟩
  rcases hset d x hx with ⟨rfl, rfl⟩ | ⟨-, hx⟩
  exacts [.inr ⟨v, hv, hn⟩, hcells d x hx]

lemma narrow_spec (hs : s.Flat) (ht : t.Flat) (h : s.narrow t = .ok r) :
    r.Flat ∧ (t.le s = .ok true → t.le r = .ok true) := by
  rcases narrow_cases h with rfl | ⟨cells, rfl, hcells⟩
  · exact ⟨ht, fun _ => le_self ht⟩
  have hflat : State.Flat { t with cells, relation := s.relation.narrow t.relation } := by
    refine ⟨fun c u hu => ?_, ht.copies, ht.kept, by simp only [hs.relation, ht.relation]; rfl⟩
    rcases hcells c u hu with hu | ⟨v, hv, ⟨-, rfl⟩ | ⟨w, hw, hn⟩⟩
    · exact ht.cells c u hu
    · exact hs.cells c u hv
    · exact (narrow_spec (hs.cells c v hv) (ht.cells c w hw) hn).1
  refine ⟨hflat, fun hts => (le_iff ht hflat).2 fun htr =>
    ⟨htr, { StoreUnder.refl t with cells := fun c u hu => ?_ }⟩⟩
  rcases hcells c u hu with hu | ⟨v, hv, hn⟩
  · exact ⟨u, hu, .refl u⟩
  obtain ⟨w, hw, hwv⟩ := ((le_iff ht hs).1 hts htr).2.cells c v hv
  rcases hn with ⟨hnone, -⟩ | ⟨w', hw', hn⟩
  · cases hnone.symm.trans hw
  · cases hw'.symm.trans hw
    exact ⟨w, hw, (narrow_spec (hs.cells c v hv) (ht.cells c w hw) hn).2 hwv⟩

end State
end StaticAnalysis
