import StaticAnalysis.Order.SortedMap
import StaticAnalysis.Order.SortedSet
import StaticAnalysis.Proofs.Arith.Faults

/-!
# Lookups and membership after each operation

A map is what its lookups are and a set is what its members are.  Each operation of `SortedMap` and
`SortedSet` gets one lemma in these terms, so that no later proof opens the lists behind them.
-/

namespace StaticAnalysis

open Fault List

namespace SortedMap

variable {κ α β ε : Type}
variable {f : κ → α → Except ε (Option β)} {l : List (κ × α)} {e : κ × α}

lemma filterMapM_of_selectM {r : { r : List (κ × β) // (r.map Prod.fst).Sublist (l.map Prod.fst) }}
    (h : selectM f l = .ok r) : l.filterMapM (fun e => do return (← f e.1 e.2).map (e.1, ·)) =
    .ok r.1 := by
  induction l with
  | nil =>
    cases h
    rfl
  | cons e l ih =>
    obtain ⟨o, ho, h⟩ := bind_eq_ok.1 h
    obtain ⟨r', hr', h⟩ := bind_eq_ok.1 h
    rw [filterMapM_cons, ho, ok_bind, pure_eq_ok, ok_bind]
    cases o with
    | none =>
      cases h
      exact ih hr'
    | some w =>
      cases h
      exact bind_eq_ok.2 ⟨_, ih hr', rfl⟩

variable [Ord κ]

lemma contains_iff {m : SortedMap κ α} {k : κ} : m.contains k ↔ ∃ v, m.get? k = some v := by
  rw [contains, Option.isSome_iff_exists]

lemma getD_eq (m : SortedMap κ α) (k : κ) (d : α) : m.getD k d = (m.get? k).getD d := rfl

variable {m : SortedMap κ α} {k j : κ} {v w : α}

lemma of_getD {P : α → Prop} (hm : ∀ k v, m.get? k = some v → P v) (hv : P v) : P (m.getD k v) := by
  rw [getD_eq]
  cases h : m.get? k with
  | none => exact hv
  | some w => exact hm k w h

variable [Std.TransOrd κ] [Std.LawfulEqOrd κ]

lemma get?_insert [DecidableEq κ] (m : SortedMap κ α) (k j : κ) (v : α) :
    (m.insert k v).get? j = if j = k then some v else m.get? j := by
  split
  next h => rw [h, get?_insert_self]
  next h => exact get?_insert_of_ne h

lemma mem_keys : k ∈ m.keys ↔ ∃ v, m.get? k = some v := by
  simp only [keys, mem_map, get?_eq_some_iff]
  constructor
  · rintro ⟨⟨j, v⟩, h, rfl⟩
    exact ⟨v, h⟩
  · rintro ⟨v, h⟩
    exact ⟨(k, v), h, rfl⟩

lemma get?_eq_none (h : k ∉ m.keys) : m.get? k = none := by
  by_contra hne
  exact h (mem_keys.2 (Option.ne_none_iff_exists'.1 hne))

lemma get?_filter (p : κ → α → Bool) (m : SortedMap κ α) (k : κ) :
    (m.filter p).get? k = (m.get? k).filter (p k) := by
  apply Option.ext
  intro v
  rw [get?_eq_some_iff, Option.filter_eq_some_iff, get?_eq_some_iff]
  simp [filter]

lemma get?_insert_cases [DecidableEq κ]
    (h : (m.insert k v).get? j = some w) : w = v ∨ m.get? j = some w := by
  rw [get?_insert] at h
  split at h
  · exact .inl (Option.some.inj h).symm
  · exact .inr h

lemma get?_of_filter {p : κ → α → Bool} (h : (m.filter p).get? k = some v) : m.get? k = some v := by
  rw [get?_filter, Option.filter_eq_some_iff] at h
  exact h.1

lemma get?_of_erase (h : (m.erase k).get? j = some v) : m.get? j = some v :=
  get?_of_filter h

lemma get?_erase [DecidableEq κ] (m : SortedMap κ α) (k j : κ) :
    (m.erase k).get? j = if j = k then none else m.get? j := by
  rw [erase, get?_filter]
  split
  next h =>
    subst h
    cases m.get? j <;> simp [Std.ReflCmp.compare_self]
  next h =>
    have hne : compare k j ≠ .eq := fun he => h (Std.LawfulEqCmp.eq_of_compare he).symm
    cases m.get? j <;> simp [hne]

@[simp] lemma get?_singleton [DecidableEq κ] (k j : κ) (v : α) :
    (singleton k v).get? j = if j = k then some v else none := by
  apply Option.ext
  intro w
  rw [get?_eq_some_iff]
  simp only [singleton, List.mem_singleton, Prod.mk.injEq]
  split
  next h => simp [h, eq_comm]
  next h => simp [h]

lemma mem_of_get?_ofList (h : (ofList l).get? k = some v) : (k, v) ∈ l := by
  induction l with
  | nil => simp [ofList] at h
  | cons e l ih =>
    change (if (ofList l).contains e.1 then ofList l else (ofList l).insert e.1 e.2).get? k
      = some v at h
    split at h
    · exact mem_cons_of_mem _ (ih h)
    · rcases mem_place (get?_eq_some_iff.1 h) with heq | hmem
      · rw [heq]
        exact mem_cons_self
      · exact mem_cons_of_mem _ (ih (get?_eq_some_iff.2 hmem))

lemma exists_get?_ofList [DecidableEq κ] (h : (k, v) ∈ l) : ∃ w, (ofList l).get? k = some w := by
  induction l with
  | nil => cases h
  | cons e l ih =>
    change ∃ w, (if (ofList l).contains e.1 then ofList l
      else (ofList l).insert e.1 e.2).get? k = some w
    split
    next hc =>
      rcases mem_cons.1 h with rfl | h
      · exact contains_iff.1 hc
      · exact ih h
    next hc =>
      rw [get?_insert]
      split
      · exact ⟨_, rfl⟩
      next hne =>
        rcases mem_cons.1 h with rfl | h
        · exact absurd rfl hne
        · exact ih h

lemma lookup_cons (hl : (e :: l).Pairwise (fun p q => compare p.1 q.1 = .lt)) (k : κ) :
    (k = e.1 ∧ lookup k (e :: l) = some e.2 ∧ lookup k l = none) ∨
    (k ≠ e.1 ∧ lookup k (e :: l) = lookup k l) := by
  obtain ⟨hhd, htl⟩ := pairwise_cons.1 hl
  by_cases hk : k = e.1
  · refine .inl ⟨hk, (lookup_eq_some_iff hl).2 (hk ▸ mem_cons_self), ?_⟩
    refine Option.eq_none_iff_forall_ne_some.2 fun a ha => ?_
    have := hhd _ ((lookup_eq_some_iff htl).1 ha)
    simp [← hk, Std.ReflCmp.compare_self] at this
  · refine .inr ⟨hk, Option.ext fun a => ?_⟩
    rw [lookup_eq_some_iff hl, lookup_eq_some_iff htl, mem_cons]
    exact or_iff_right fun he => hk (he ▸ rfl)

lemma get?_foldl_insert (g : α → β) (hl : l.Pairwise (fun p q => compare p.1 q.1 = .lt))
    (m : SortedMap κ β) (k : κ) : (l.foldl (fun r e => r.insert e.1 (g e.2)) m).get? k =
    match lookup k l
    with | some a => some (g a) | none => m.get? k := by
  induction l generalizing m with
  | nil => rfl
  | cons e l ih =>
    rw [foldl_cons, ih (pairwise_cons.1 hl).2]
    rcases lookup_cons hl k with ⟨rfl, hself, hnone⟩ | ⟨hk, hskip⟩
    · simp only [hself, hnone]
      exact get?_insert_self m e.1 (g e.2)
    · rw [hskip, get?_insert_of_ne hk]

/-! ### Effects -/

lemma get?_filterMapM {s : SortedMap κ α} {r : SortedMap κ β} (h : s.filterMapM f = .ok r) (k : κ) :
    (s.get? k = none ∧ r.get? k = none) ∨ ∃ v, s.get? k = some v ∧ f k v = .ok (r.get? k) := by
  obtain ⟨⟨l, hl⟩, hsel, h⟩ := bind_eq_ok.1 h
  obtain ⟨hfrom, hto⟩ := mem_filterMapM (filterMapM_of_selectM hsel)
  cases h
  replace hfrom : ∀ w, (k, w) ∈ l → ∃ v, s.get? k = some v ∧ f k v = .ok (some w) := by
    intro w hw
    obtain ⟨⟨j, v⟩, hv, hf⟩ := hfrom _ hw
    obtain ⟨o, ho, hf⟩ := bind_eq_ok.1 hf
    cases o <;> cases hf
    exact ⟨v, get?_eq_some_iff.2 hv, ho⟩
  cases hs : s.get? k with
  | none =>
    refine .inl ⟨rfl, Option.eq_none_iff_forall_ne_some.2 fun w hw => ?_⟩
    obtain ⟨v, hv, -⟩ := hfrom w (get?_eq_some_iff.1 hw)
    cases hs.symm.trans hv
  | some v =>
    obtain ⟨_, hok, hmem⟩ := hto (k, v) (get?_eq_some_iff.1 hs)
    obtain ⟨o, ho, hok⟩ := bind_eq_ok.1 hok
    cases hok
    refine .inr ⟨v, rfl, ho.trans (congrArg Except.ok (Eq.symm ?_))⟩
    cases o with
    | some w => exact get?_eq_some_iff.2 (hmem _ rfl)
    | none =>
      refine Option.eq_none_iff_forall_ne_some.2 fun w hw => ?_
      obtain ⟨v', hv', hf⟩ := hfrom w (get?_eq_some_iff.1 hw)
      cases hs.symm.trans hv'
      cases ho.symm.trans hf

/-- Merging adds one entry of the other map after the other. -/
def mergeEntry (f : α → α → Except ε α) (r : SortedMap κ α) (e : κ × α) :
    Except ε (SortedMap κ α) :=
  match r.get? e.1 with
  | some v => do return r.insert e.1 (← f v e.2)
  | none => pure (r.insert e.1 e.2)

omit [Std.LawfulEqOrd κ] in
lemma mergeEntry_cases {f : α → α → Except ε α} {s r : SortedMap κ α}
    (h : mergeEntry f s e = .ok r) :
    ∃ u, r = s.insert e.1 u ∧
      match s.get? e.1 with | some v => f v e.2 = .ok u | none => u = e.2 := by
  unfold mergeEntry at h
  split at h
  · obtain ⟨u, hu, h⟩ := bind_eq_ok.1 h
    cases h
    exact ⟨u, rfl, hu⟩
  · cases h
    exact ⟨e.2, rfl, rfl⟩

lemma get?_mergeM {f : α → α → Except ε α} {s t r : SortedMap κ α}
    (h : s.mergeM f t = .ok r) (k : κ) :
    match s.get? k, t.get? k with
    | some v, some w => ∃ u, f v w = .ok u ∧ r.get? k = some u
    | some v, none => r.get? k = some v
    | none, o => r.get? k = o := by
  suffices hgen : ∀ (l : List (κ × α)) (s : SortedMap κ α),
      l.Pairwise (fun p q => compare p.1 q.1 = .lt) → l.foldlM (mergeEntry f) s = .ok r →
      match s.get? k, lookup k l with
      | some v, some w => ∃ u, f v w = .ok u ∧ r.get? k = some u
      | some v, none => r.get? k = some v
      | none, o => r.get? k = o from
    hgen t.entries s t.sorted h
  intro l
  induction l with
  | nil =>
    intro s _ h
    cases h
    cases hr : r.get? k <;> rfl
  | cons e l ih =>
    intro s hsorted h
    obtain ⟨s', hs', h⟩ := bind_eq_ok.1 h
    obtain ⟨u, rfl, hu⟩ := mergeEntry_cases hs'
    have hrest := ih _ (pairwise_cons.1 hsorted).2 h
    rcases lookup_cons hsorted k with ⟨rfl, hself, hnone⟩ | ⟨hk, hskip⟩
    · rw [hnone, get?_insert_self] at hrest
      rw [hself]
      cases hs : s.get? e.1 with
      | some v => exact ⟨u, by rwa [hs] at hu, hrest⟩
      | none =>
        rw [hs] at hu
        exact hu ▸ hrest
    · rw [get?_insert_of_ne hk] at hrest
      rwa [hskip]

end SortedMap

namespace SortedSet

variable {κ : Type} [Ord κ]
variable {a : κ} {l : List κ} {t : SortedSet κ}

variable {s u : SortedSet κ}

lemma mem_toList : a ∈ s.toList ↔ a ∈ s := Iff.rfl

@[simp] lemma not_mem_empty (a : κ) : a ∉ (empty : SortedSet κ) := by
  intro h
  cases h

@[simp] lemma mem_singleton {k : κ} : a ∈ singleton k ↔ a = k := List.mem_singleton

@[simp] lemma mem_filter {p : κ → Bool} {s : SortedSet κ} : a ∈ s.filter p ↔ a ∈ s ∧ p a :=
  List.mem_filter

lemma isEmpty_iff {s : SortedSet κ} : s.isEmpty ↔ ∀ a, a ∉ s := by
  simp only [isEmpty, List.isEmpty_iff, eq_nil_iff_forall_not_mem]
  rfl

variable [Std.TransOrd κ] [Std.LawfulEqOrd κ]

lemma mem_insertMany : a ∈ s.insertMany l ↔ a ∈ l ∨ a ∈ s := by
  induction l with
  | nil => simp [insertMany]
  | cons k l ih =>
    change a ∈ (s.insertMany l).insert k ↔ _
    rw [mem_insert, ih, mem_cons, or_assoc]

@[simp] lemma mem_ofList : a ∈ ofList l ↔ a ∈ l := by
  rw [ofList, mem_insertMany]
  simp

@[simp] lemma mem_union : a ∈ s.union t ↔ a ∈ s ∨ a ∈ t := by
  rw [union, mem_insertMany, mem_toList, or_comm]

@[simp] lemma mem_inter : a ∈ s.inter t ↔ a ∈ s ∧ a ∈ t := by
  rw [inter, mem_filter, contains_iff]

omit [Std.TransOrd κ] in
@[simp] lemma mem_erase {k : κ} : a ∈ s.erase k ↔ a ∈ s ∧ a ≠ k := by
  rw [erase, mem_filter, bne_iff_ne, ne_eq, Std.compare_eq_iff_eq]
  simp [eq_comm]

lemma subset_iff : s.subset t ↔ ∀ a ∈ s, a ∈ t := by
  simp only [subset, all_eq_true, contains_iff]
  rfl

lemma subset_self (s : SortedSet κ) : s.subset s := subset_iff.2 fun _ h => h

lemma subset_trans (hst : s.subset t) (htu : t.subset u) : s.subset u :=
  subset_iff.2 fun a h => subset_iff.1 htu a (subset_iff.1 hst a h)

lemma union_self (s : SortedSet κ) : s.union s = s :=
  ext_mem fun a => by rw [mem_union, or_self]

lemma union_comm (s t : SortedSet κ) : s.union t = t.union s :=
  ext_mem fun a => by rw [mem_union, mem_union, or_comm]

omit [Std.LawfulEqOrd κ] in
lemma nodup (s : SortedSet κ) : s.toList.Nodup :=
  s.sorted.imp fun hlt heq => by
    rw [heq, Std.compare_self] at hlt
    cases hlt

omit [Std.LawfulEqOrd κ] in
lemma idxOf?_getElem [DecidableEq κ] (s : SortedSet κ) {i : Nat} (h : i < s.toList.length) :
    s.toList.idxOf? s.toList[i] = some i :=
  idxOf?_eq_some_iff.2 ⟨h, rfl, fun j hj =>
    pairwise_iff_getElem.1 s.nodup j i (Nat.lt_trans hj h) h hj⟩

end SortedSet
end StaticAnalysis
