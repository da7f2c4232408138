import StaticAnalysis.Order.Lex

/-!
# Finite sets in order

A `SortedSet` holds its members in strictly ascending order, and the order is part of the type:
two sets with the same members are equal (`SortedSet.ext_mem`), and everything that walks a set
walks it in ascending order.
-/

namespace StaticAnalysis

/-- A finite set whose members are kept in ascending order. -/
structure SortedSet (κ : Type) [Ord κ] where
  toList : List κ
  sorted : toList.Pairwise (fun a b => compare a b = .lt)
deriving DecidableEq

namespace SortedSet

variable {κ : Type} [Ord κ]

def empty : SortedSet κ := ⟨[], List.Pairwise.nil⟩

def isEmpty (s : SortedSet κ) : Bool := s.toList.isEmpty

variable (s t : SortedSet κ)

def size : Nat := s.toList.length

/-! ## Membership -/

/-- Look for a member among members that ascend. -/
def search (k : κ) : List κ → Bool
  | [] => false
  | j :: rest =>
    match compare k j with
    | .lt => false
    | .eq => true
    | .gt => search k rest

def contains (k : κ) : Bool := search k s.toList

instance : Membership κ (SortedSet κ) := ⟨fun s k => k ∈ s.toList⟩

/-! ## Insertion -/

def place (k : κ) : List κ → List κ
  | [] => [k]
  | j :: rest =>
    match compare k j with
    | .lt => k :: j :: rest
    | .eq => j :: rest
    | .gt => j :: place k rest

theorem mem_of_mem_place {k a : κ} {l : List κ} (h : a ∈ place k l) : a = k ∨ a ∈ l := by
  induction l with
  | nil => simpa [place] using h
  | cons hd tl ih =>
    rw [place] at h
    split at h <;> grind

theorem pairwise_place [Std.TransOrd κ] (k : κ) {l : List κ}
    (h : l.Pairwise (fun a b => compare a b = .lt)) :
    (place k l).Pairwise (fun a b => compare a b = .lt) := by
  induction l with
  | nil => simp [place]
  | cons hd tl ih =>
    obtain ⟨hhd, htl⟩ := List.pairwise_cons.1 h
    rw [place]
    split
    next hlt =>
      refine List.pairwise_cons.2 ⟨fun p hp => ?_, h⟩
      rcases List.mem_cons.1 hp with rfl | hp
      · exact hlt
      · exact Std.TransCmp.lt_trans hlt (hhd p hp)
    next => exact h
    next hgt =>
      refine List.pairwise_cons.2 ⟨fun p hp => ?_, ih htl⟩
      rcases mem_of_mem_place hp with rfl | hp
      · exact Std.OrientedCmp.gt_iff_lt.1 hgt
      · exact hhd p hp

def insert [Std.TransOrd κ] (s : SortedSet κ) (k : κ) : SortedSet κ :=
  ⟨place k s.toList, pairwise_place k s.sorted⟩

/-- The set with every element of a list added. -/
def insertMany [Std.TransOrd κ] (s : SortedSet κ) (l : List κ) : SortedSet κ :=
  l.foldr (fun k t => t.insert k) s

def ofList [Std.TransOrd κ] (l : List κ) : SortedSet κ := insertMany empty l

def singleton (k : κ) : SortedSet κ := ⟨[k], List.pairwise_singleton _ _⟩

/-! ## Set algebra -/

def filter (p : κ → Bool) (s : SortedSet κ) : SortedSet κ :=
  ⟨s.toList.filter p, s.sorted.sublist List.filter_sublist⟩

def erase (k : κ) : SortedSet κ := s.filter fun j => compare k j != .eq

def union [Std.TransOrd κ] (s t : SortedSet κ) : SortedSet κ := s.insertMany t.toList

def inter : SortedSet κ := s.filter t.contains

def subset : Bool := s.toList.all t.contains

def disjoint : Bool := s.toList.all fun k => !t.contains k

/-- Sets are compared as their ascending lists. -/
instance : Ord (SortedSet κ) := ⟨compareOn toList⟩

instance [Std.TransOrd κ] : Std.TransOrd (SortedSet κ) :=
  inferInstanceAs (Std.TransCmp (compareOn toList))

instance [Std.LawfulEqOrd κ] : Std.LawfulEqOrd (SortedSet κ) :=
  Order.Reads.lawful .on fun s t h => by cases s; cases t; simp_all

/-! ## Laws of membership -/

theorem search_iff_mem [Std.TransOrd κ] [Std.LawfulEqOrd κ] {k : κ} {l : List κ}
    (h : l.Pairwise (fun a b => compare a b = .lt)) : search k l = true ↔ k ∈ l := by
  induction l with
  | nil => simp [search]
  | cons hd tl ih =>
    obtain ⟨hhd, htl⟩ := List.pairwise_cons.1 h
    rw [search]
    split
    next hlt =>
      have hne : k ≠ hd := fun he => by simp [he, Std.ReflCmp.compare_self] at hlt
      have hmem : k ∉ tl := fun hm => by
        have := Std.TransCmp.lt_trans hlt (hhd k hm)
        simp [Std.ReflCmp.compare_self] at this
      simp [hne, hmem]
    next heq => simp [Std.LawfulEqCmp.eq_of_compare heq]
    next hgt =>
      have hne : k ≠ hd := fun he => by simp [he, Std.ReflCmp.compare_self] at hgt
      simp [ih htl, hne]

/-- The decision procedure for membership is right. -/
theorem contains_iff [Std.TransOrd κ] [Std.LawfulEqOrd κ] {s : SortedSet κ} {k : κ} :
    s.contains k = true ↔ k ∈ s :=
  search_iff_mem s.sorted

theorem mem_insert [Std.TransOrd κ] [Std.LawfulEqOrd κ] {s : SortedSet κ} {k a : κ} :
    a ∈ s.insert k ↔ a = k ∨ a ∈ s := by
  suffices h : ∀ l : List κ, a ∈ place k l ↔ a = k ∨ a ∈ l from h s.toList
  intro l
  induction l with
  | nil => simp [place]
  | cons hd tl ih =>
    rw [place]
    split
    next => simp
    next heq =>
      have hk : k = hd := Std.LawfulEqCmp.eq_of_compare heq
      simp [hk]
    next =>
      simp only [List.mem_cons, ih]
      grind

/-- Two sets with the same members are the same set. -/
theorem ext_mem [Std.TransOrd κ] {s t : SortedSet κ} (h : ∀ k, k ∈ s ↔ k ∈ t) : s = t := by
  suffices he : s.toList = t.toList by
    cases s
    cases t
    simp_all
  refine List.Perm.eq_of_pairwise (fun a b _ _ hab hba => ?_) s.sorted t.sorted ?_
  · exact absurd hba (Std.OrientedCmp.not_lt_of_lt hab)
  · refine (List.perm_ext_iff_of_nodup ?_ ?_).2 h
    · exact s.sorted.imp fun hlt he => by simp [he, Std.ReflCmp.compare_self] at hlt
    · exact t.sorted.imp fun hlt he => by simp [he, Std.ReflCmp.compare_self] at hlt

end SortedSet
end StaticAnalysis
