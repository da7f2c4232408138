/-!
# Finite maps in key order

A `SortedMap` holds its entries in strictly ascending key order, and the order is part of the type:
two maps with the same lookups are equal (`SortedMap.ext_get?`), and everything that walks a map
walks it by ascending keys.
-/

namespace StaticAnalysis

/-- A finite map whose entries are kept in ascending key order. -/
structure SortedMap (κ α : Type) [Ord κ] where
  entries : List (κ × α)
  sorted : entries.Pairwise (fun p q => compare p.1 q.1 = .lt)
deriving DecidableEq

namespace SortedMap

variable {κ α β : Type} [Ord κ]

def empty : SortedMap κ α := ⟨[], List.Pairwise.nil⟩

def isEmpty (m : SortedMap κ α) : Bool := m.entries.isEmpty

variable (m : SortedMap κ α)

def size : Nat := m.entries.length

def keys : List κ := m.entries.map Prod.fst

def values : List α := m.entries.map Prod.snd

/-! ## Lookup -/

def lookup (k : κ) : List (κ × α) → Option α
  | [] => none
  | (j, v) :: rest =>
    match compare k j with
    | .lt => none
    | .eq => some v
    | .gt => lookup k rest

def get? (k : κ) : Option α := lookup k m.entries

def getD (m : SortedMap κ α) (k : κ) (default : α) : α := (m.get? k).getD default

def contains (k : κ) : Bool := (m.get? k).isSome

/-! ## Insertion -/

/-- Put an entry where it belongs, replacing an entry with the same key. -/
def place (k : κ) (v : α) : List (κ × α) → List (κ × α)
  | [] => [(k, v)]
  | (j, w) :: rest =>
    match compare k j with
    | .lt => (k, v) :: (j, w) :: rest
    | .eq => (k, v) :: rest
    | .gt => (j, w) :: place k v rest

theorem mem_place {k : κ} {v : α} {p : κ × α} {l : List (κ × α)} (h : p ∈ place k v l) :
    p = (k, v) ∨ p ∈ l := by
  induction l with
  | nil => simpa [place] using h
  | cons hd tl ih =>
    rw [place] at h
    split at h <;> grind

theorem pairwise_place [Std.TransOrd κ] (k : κ) (v : α) {l : List (κ × α)}
    (h : l.Pairwise (fun p q => compare p.1 q.1 = .lt)) :
    (place k v l).Pairwise (fun p q => compare p.1 q.1 = .lt) := by
  induction l with
  | nil => simp [place]
  | cons hd tl ih =>
    obtain ⟨hhd, htl⟩ := List.pairwise_cons.1 h
    rw [place]
    split
    next hlt =>
      refine List.pairwise_cons.2 ⟨fun p hp => ?_, h⟩
      rcases List.mem_cons.1 hp with rfl | hp
      · exact hlt
      · exact Std.TransCmp.lt_trans hlt (hhd p hp)
    next heq =>
      refine List.pairwise_cons.2 ⟨fun p hp => ?_, htl⟩
      exact Std.TransCmp.lt_of_eq_of_lt heq (hhd p hp)
    next hgt =>
      refine List.pairwise_cons.2 ⟨fun p hp => ?_, ih htl⟩
      rcases mem_place hp with rfl | hp
      · exact Std.OrientedCmp.gt_iff_lt.1 hgt
      · exact hhd p hp

def insert [Std.TransOrd κ] (m : SortedMap κ α) (k : κ) (v : α) : SortedMap κ α :=
  ⟨place k v m.entries, pairwise_place k v m.sorted⟩

/-- The map of a list of entries; of several entries with one key the last counts. -/
def ofList [Std.TransOrd κ] (l : List (κ × α)) : SortedMap κ α :=
  l.foldr (fun p m => if m.contains p.1 then m else m.insert p.1 p.2) empty

def singleton (k : κ) (v : α) : SortedMap κ α := ⟨[(k, v)], List.pairwise_singleton _ _⟩

/-! ## Removal and selection -/

def filter (p : κ → α → Bool) (m : SortedMap κ α) : SortedMap κ α :=
  ⟨m.entries.filter (fun e => p e.1 e.2), m.sorted.sublist List.filter_sublist⟩

def erase (k : κ) : SortedMap κ α :=
  m.filter fun j _ => compare k j != .eq

/-- The map with every value replaced by a function of its entry. -/
def mapWithKey (f : κ → α → β) (m : SortedMap κ α) : SortedMap κ β :=
  ⟨m.entries.map (fun e => (e.1, f e.1 e.2)), List.pairwise_map.2 m.sorted⟩

/-- Walk entries in order with an effect, and keep those that have a result. -/
def selectM {m : Type → Type} [Monad m] (f : κ → α → m (Option β)) :
    (l : List (κ × α)) → m { r : List (κ × β) // (r.map Prod.fst).Sublist (l.map Prod.fst) }
  | [] => pure ⟨[], .slnil⟩
  | (k, v) :: l => do
    let w ← f k v
    let ⟨r, h⟩ ← selectM f l
    match w with
    | some w => pure ⟨(k, w) :: r, h.cons_cons k⟩
    | none => pure ⟨r, h.cons k⟩

/-- Walk a map in order with an effect, and keep the entries that have a result. -/
def filterMapM {m : Type → Type} [Monad m] (f : κ → α → m (Option β)) (s : SortedMap κ α) :
    m (SortedMap κ β) := do
  let ⟨r, h⟩ ← selectM f s.entries
  have keys : (s.entries.map Prod.fst).Pairwise (fun a b => compare a b = .lt) :=
    List.pairwise_map.2 s.sorted
  pure ⟨r, List.pairwise_map.1 (keys.sublist h)⟩

/-- Add the entries of another map, combining the values of common keys with an effect. -/
def mergeM {m : Type → Type} [Monad m] [Std.TransOrd κ] (f : α → α → m α) (s t : SortedMap κ α) :
    m (SortedMap κ α) :=
  t.entries.foldlM (fun r (k, w) =>
    match r.get? k with
    | some v => do return r.insert k (← f v w)
    | none => pure (r.insert k w)) s

/-! ## Laws of lookup -/

theorem lookup_eq_some_iff [Std.TransOrd κ] [Std.LawfulEqOrd κ] {k : κ} {v : α}
    {l : List (κ × α)} (h : l.Pairwise (fun p q => compare p.1 q.1 = .lt)) :
    lookup k l = some v ↔ (k, v) ∈ l := by
  induction l with
  | nil => simp [lookup]
  | cons hd tl ih =>
    obtain ⟨j, w⟩ := hd
    obtain ⟨hhd, htl⟩ := List.pairwise_cons.1 h
    rw [lookup]
    split
    next hlt =>
      constructor
      · simp
      · intro hmem
        rcases List.mem_cons.1 hmem with heq | hmem
        · cases heq
          simp [Std.ReflCmp.compare_self] at hlt
        · have := Std.TransCmp.lt_trans hlt (hhd _ hmem)
          simp [Std.ReflCmp.compare_self] at this
    next heq =>
      have hk : k = j := Std.LawfulEqCmp.eq_of_compare heq
      subst hk
      constructor
      · intro hv
        cases hv
        simp
      · intro hmem
        rcases List.mem_cons.1 hmem with heq | hmem
        · cases heq
          rfl
        · have := hhd _ hmem
          simp [Std.ReflCmp.compare_self] at this
    next hgt =>
      rw [ih htl]
      constructor
      · exact fun hmem => List.mem_cons_of_mem _ hmem
      · intro hmem
        rcases List.mem_cons.1 hmem with heq | hmem
        · cases heq
          simp [Std.ReflCmp.compare_self] at hgt
        · exact hmem

/-- A lookup succeeds exactly on the entries of the map. -/
theorem get?_eq_some_iff [Std.TransOrd κ] [Std.LawfulEqOrd κ] {m : SortedMap κ α} {k : κ} {v : α} :
    m.get? k = some v ↔ (k, v) ∈ m.entries :=
  lookup_eq_some_iff m.sorted

@[simp] theorem get?_empty (k : κ) : (empty : SortedMap κ α).get? k = none := rfl

theorem get?_insert_self [Std.TransOrd κ] (m : SortedMap κ α) (k : κ) (v : α) :
    (m.insert k v).get? k = some v := by
  suffices h : ∀ l : List (κ × α), lookup k (place k v l) = some v from h m.entries
  intro l
  induction l with
  | nil => simp [place, lookup, Std.ReflCmp.compare_self]
  | cons hd tl ih =>
    rw [place]
    split
    next => simp [lookup, Std.ReflCmp.compare_self]
    next => simp [lookup, Std.ReflCmp.compare_self]
    next hgt => rw [lookup, hgt]; exact ih

theorem get?_insert_of_ne [Std.TransOrd κ] [Std.LawfulEqOrd κ] {m : SortedMap κ α} {k j : κ} {v : α}
    (h : j ≠ k) : (m.insert k v).get? j = m.get? j := by
  apply Option.ext
  intro w
  rw [get?_eq_some_iff, get?_eq_some_iff]
  suffices hl : ∀ l : List (κ × α), (j, w) ∈ place k v l ↔ (j, w) ∈ l from hl m.entries
  intro l
  induction l with
  | nil => simp [place, h]
  | cons hd tl ih =>
    obtain ⟨i, u⟩ := hd
    rw [place]
    split
    next => simp [h]
    next heq =>
      have hk : k = i := Std.LawfulEqCmp.eq_of_compare heq
      simp [h, ← hk]
    next => simp [ih]

/-- Two maps with the same lookups are the same map. -/
theorem ext_get? [Std.TransOrd κ] [Std.LawfulEqOrd κ] {m n : SortedMap κ α}
    (h : ∀ k, m.get? k = n.get? k) : m = n := by
  have hmem : ∀ p : κ × α, p ∈ m.entries ↔ p ∈ n.entries := fun p => by
    rw [← get?_eq_some_iff, ← get?_eq_some_iff, h]
  suffices he : m.entries = n.entries by
    cases m
    cases n
    simp_all
  refine List.Perm.eq_of_pairwise (fun a b _ _ hab hba => ?_) m.sorted n.sorted ?_
  · exact absurd hba (Std.OrientedCmp.not_lt_of_lt hab)
  · refine (List.perm_ext_iff_of_nodup ?_ ?_).2 hmem
    · exact m.sorted.imp fun hlt he => by simp [he, Std.ReflCmp.compare_self] at hlt
    · exact n.sorted.imp fun hlt he => by simp [he, Std.ReflCmp.compare_self] at hlt

end SortedMap
end StaticAnalysis
