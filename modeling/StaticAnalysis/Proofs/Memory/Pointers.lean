import StaticAnalysis.Proofs.Memory.Alike
import StaticAnalysis.State.Basic

/-!
# Concrete memories with pointers

A concrete memory has objects, of which several may go by one abstract name, and cells that hold
numbers, pointers or arrays of such.  `Memory.Describes` says which of these a value stands for, and
`Memory.Reaches` follows pointers from some roots through the memory.

`Value.MayPoint` says which cells a value may point to.  The one thing that `Value.pointees?`
forgets of it is `Value.top`: an unknown value may be any pointer, and has no pointees.  Only the
opaque objects of unknown callers alias what they are not, so on other targets the truth of an
equality is read off from the targets that two pointers have in common.
-/

namespace StaticAnalysis

open Fault List Segmented SortedSet

/-! ## Memories -/

/-- What a cell of a concrete memory holds.  The null pointer is the number zero. -/
inductive Datum (ω : Type) where
  | number (n : Int)
  /-- The address of the part of an object at the end of a path of fields. -/
  | pointer (o : ω) (path : List String)
  | array (elements : List (Datum ω))

/-- The datum is a pointer, or an array that holds one. -/
inductive Datum.PointsTo {ω : Type} : Datum ω → ω → List String → Prop
  | pointer {o : ω} {path : List String} : PointsTo (.pointer o path) o path
  | element {elements : List (Datum ω)} {d : Datum ω} {o : ω} {path : List String}
    (hd : d ∈ elements) (h : PointsTo d o path) : PointsTo (.array elements) o path

/-- A concrete memory over some objects: how the analysis names them, and what they hold. -/
structure Memory (ω : Type) where
  base : ω → Base
  content : ω → List String → Option (Datum ω)

namespace Memory

variable {ω : Type} (m : Memory ω)

def cell (o : ω) (path : List String) : Cell := ⟨m.base o, path⟩

/-- A value stands for a datum.  An unknown value stands for every number and every pointer. -/
inductive Describes : Value → Datum ω → Prop
  | top {d : Datum ω} : Describes .top d
  | int {i : IntVal} {n : Int} (h : i.contains n = true) : Describes (.int i) (.number n)
  | null {a : AddrSet} (h : a.mayBeNull = true) : Describes (.addr a) (.number 0)
  | anywhere {o : ω} {path : List String} : Describes (.addr .any) (.pointer o path)
  | target {targets : SortedSet Target} {o : ω} {path : List String}
    (h : some (m.cell o path) ∈ targets) : Describes (.addr (.of targets)) (.pointer o path)
  | array {a : ArrayVal} {elements : List (Datum ω)}
    (hlength : ∀ n, a.length = some n → (elements.length : Int) = n)
    (h : ∀ (i : Nat) d, elements[i]? = some d → Describes (a.valueAt i) d) :
    Describes (.array a) (.array elements)

/-- A state describes what the memory holds. -/
def DescribedBy (s : State) : Prop :=
  ∀ o path d, m.content o path = some d → m.Describes (s.get (m.cell o path)) d

/-- What can be reached by following pointers, from the pointers in `roots` on.  A pointer to an
object gives access to all its parts. -/
inductive Reaches (roots : Datum ω → Prop) : ω → List String → Prop
  | root {d : Datum ω} {o : ω} {path : List String} (hd : roots d) (h : d.PointsTo o path) :
    Reaches roots o path
  | part {o : ω} {path : List String} (h : Reaches roots o path) (rest : List String) :
    Reaches roots o (path ++ rest)
  | step {o o' : ω} {path path' : List String} {d : Datum ω} (h : Reaches roots o path)
    (hd : m.content o path = some d) (hpoint : d.PointsTo o' path') : Reaches roots o' path'

/-- What a callee starts from: the arguments, and what globals and heap objects hold. -/
def CallRoot (args : List (Datum ω)) (d : Datum ω) : Prop :=
  d ∈ args ∨ ∃ o path, m.content o path = some d ∧
    ((m.cell o path).isGlobal = true ∨ (m.cell o path).isHeap = true)

end Memory

/-! ## Aliasing -/

namespace AddrSet

variable {S T : SortedSet Target} {x y : Target}

lemma mayAlias_self (x : Target) : mayAlias x x := by
  cases x with
  | none => rfl
  | some c =>
    obtain ⟨base, path⟩ := c
    cases base <;> simp [mayAlias]

/-- Targets that may alias are the same, unless one belongs to an unknown caller. -/
lemma eq_of_mayAlias (h : mayAlias x y) (hx : x.all (fun c => !c.isOpaque))
    (hy : y.all (fun c => !c.isOpaque)) : x = y := by
  cases x with
  | none => cases y <;> simp_all [mayAlias]
  | some c =>
    cases y with
    | none => simp [mayAlias] at h
    | some d =>
      simp only [mayAlias] at h
      simp only [Option.all_some, Cell.isOpaque, Bool.not_eq_true', beq_eq_false_iff_ne] at hx hy
      split at h <;> simp_all [Base.rank]

/-- Two sets are one and the same definite address. -/
def Same (S T : SortedSet Target) : Prop :=
  ∃ x, isDefinite x = true ∧ S = .singleton x ∧ T = .singleton x

lemma same_of_eqTruth (h : eqTruth (.of S) (.of T) = .true) : Same S T := by
  unfold eqTruth at h
  dsimp only at h
  split at h
  · cases h
  split at h
  next hone =>
    simp only [Bool.and_eq_true, beq_iff_eq] at hone
    obtain ⟨hsize, rfl⟩ := hone
    split at h
    next hdefinite =>
      obtain ⟨x, hx⟩ := length_eq_one_iff.1 hsize
      have hmem : ∀ y, y ∈ S ↔ y = x := fun y => by
        rw [← mem_toList, hx, List.mem_singleton]
      have hsingle : S = .singleton x :=
        ext_mem fun y => by rw [hmem, SortedSet.mem_singleton]
      exact ⟨x, all_eq_true.1 hdefinite x ((hmem x).2 rfl), hsingle, hsingle⟩
    next => cases h
  split at h <;> cases h

lemma not_mayAlias_of_eqTruth (h : eqTruth (.of S) (.of T) = .false) (hx : x ∈ S) (hy : y ∈ T) :
    mayAlias x y = false := by
  unfold eqTruth at h
  dsimp only at h
  split at h
  · cases h
  split at h
  · split at h <;> cases h
  split at h
  · cases h
  next hnone =>
    rw [← Bool.not_eq_true]
    exact fun halias => hnone (any_eq_true.2 ⟨x, hx, any_eq_true.2 ⟨y, hy, halias⟩⟩)

lemma eqTruth_of_mayAlias (hx : x ∈ S) (hy : y ∈ T) (h : mayAlias x y) (hsame : ¬ Same S T) :
    eqTruth (.of S) (.of T) = .unknown := by
  cases htruth : eqTruth (.of S) (.of T) with
  | true => exact absurd (same_of_eqTruth htruth) hsame
  | false => simp [not_mayAlias_of_eqTruth htruth hx hy] at h
  | unknown => rfl

end AddrSet

/-! ## Where values may point -/

namespace Value

variable {ω : Type} {v w u : Value} {c : Cell}

/-- A value may be a pointer to a cell, or an array that holds one. -/
inductive MayPoint : Value → Cell → Prop
  | top {c : Cell} : MayPoint .top c
  | anywhere {c : Cell} : MayPoint (.addr .any) c
  | target {targets : SortedSet Target} {c : Cell} (h : some c ∈ targets) :
    MayPoint (.addr (.of targets)) c
  | element {a : ArrayVal} {i : Int} {c : Cell} (hi : a.HasIndex i) (h : MayPoint (a.valueAt i) c) :
    MayPoint (.array a) c

lemma mayPoint_of_describes {m : Memory ω} {d : Datum ω} {o : ω} {path : List String}
    (h : m.Describes v d) (hpoint : d.PointsTo o path) : v.MayPoint (m.cell o path) := by
  induction h with
  | top => exact .top
  | int | null => cases hpoint
  | anywhere => exact .anywhere
  | target h =>
    cases hpoint
    exact .target h
  | array hlength _ ih =>
    obtain _ | ⟨hd, hpoint⟩ := hpoint
    obtain ⟨i, hi⟩ := mem_iff_getElem?.1 hd
    refine .element ⟨Int.natCast_nonneg i, fun n hn => ?_⟩ (ih i _ hi hpoint)
    have := (List.getElem?_eq_some_iff.1 hi).1
    have := hlength n hn
    omega

lemma not_mayPoint_of_void (h : v.Void) : ¬ v.MayPoint c := by
  induction h with
  | bottom | int => exact nofun
  | @addr a h =>
    rintro (_ | _ | hmem)
    · cases h
    · exact SortedSet.isEmpty_iff.1 h _ hmem
  | array _ ih =>
    rintro (_ | _ | _ | ⟨hi, hmay⟩)
    exact ih _ hi hmay

lemma mayPoint_addr_join {x y : AddrSet} (h : (addr x).MayPoint c ∨ (addr y).MayPoint c) :
    (addr (x.join y)).MayPoint c := by
  cases x <;> cases y <;> try exact .anywhere
  refine .target (mem_union.2 (h.imp ?_ ?_)) <;> rintro (_ | _ | hmem) <;> exact hmem

/-- An operation whose results may point wherever one of its operands may. -/
def KeepsPointers (f : Value → Value → Except Fault Value) : Prop :=
  ∀ ⦃v w u : Value⦄ ⦃c : Cell⦄, f v w = .ok u → v.MayPoint c ∨ w.MayPoint c → u.MayPoint c

section KeepsPointers

variable {join f : Value → Value → Except Fault Value} {a b r : ArrayVal}

lemma mayPoint_read (hjoin : KeepsPointers join) {range : Interval}
    (h : a.read .bottom join range = .ok u) {i : Int} (hi : a.HasIndex i)
    (hrange : range.contains i) (hc : (a.valueAt i).MayPoint c) : u.MayPoint c := by
  obtain ⟨l, hfold, -, hall⟩ := read_eq h
  have hvisit := foldlM_visit (P := fun _ => True) (R := fun x s => ∀ c, x.MayPoint c →
    s.MayPoint c) (fun s x s' _ _ hstep => ⟨trivial, fun c hx => hjoin hstep (.inr hx),
      fun y _ hy c hc => hjoin hstep (.inl (hy c hc))⟩) trivial hfold
  exact hvisit.2 _ (hall i hi hrange) c hc

lemma mayPoint_combine (hjoin : KeepsPointers join) (hf : KeepsPointers f)
    (h : Segmented.combine .bottom join f a b = .ok r)
    (hc : (array a).MayPoint c ∨ (array b).MayPoint c) : (array r).MayPoint c := by
  have hlength : ∀ i, a.HasIndex i ∨ b.HasIndex i → r.HasIndex i := by
    intro i hi
    have hr := (combine_cases h).1
    refine ⟨hi.elim And.left And.left, fun n hn => ?_⟩
    rw [hr] at hn
    split at hn
    next heq => exact hi.elim (fun hi => hi.2 n hn) fun hi => hi.2 n (heq ▸ hn)
    next => cases hn
  -- An element of either side is combined at its own index, or read before it is combined.
  rcases hc with (_ | _ | _ | ⟨hi, hc⟩) | (_ | _ | _ | ⟨hi, hc⟩)
  all_goals rename_i i
  · refine .element (hlength i (.inl hi)) ?_
    rcases combine_valueAt h i with hat | ⟨range, hrange, x, y, hx, -, hat⟩
    · exact hf hat (.inl hc)
    · exact hf hat (.inl (mayPoint_read hjoin hx hi hrange hc))
  · refine .element (hlength i (.inr hi)) ?_
    rcases combine_valueAt h i with hat | ⟨range, hrange, x, y, -, hy, hat⟩
    · exact hf hat (.inr hc)
    · exact hf hat (.inr (mayPoint_read hjoin hy hi hrange hc))

end KeepsPointers

lemma keepsPointers_joinWith (n : Nat) : KeepsPointers (joinWith n) := by
  induction n using Nat.strongRecOn with
  | ind n ih =>
    intro v w u c h hc
    rcases joinWith_cases h with ⟨hvoid, rfl⟩ | ⟨-, hvoid, rfl⟩ | ⟨-, -, h⟩
    · exact hc.resolve_left (not_mayPoint_of_void hvoid)
    · exact hc.resolve_right (not_mayPoint_of_void hvoid)
    cases joinsTo_of_joinKinds h with
    | top => exact .top
    | int => rcases hc with hc | hc <;> cases hc
    | addr => exact mayPoint_addr_join hc
    | null => exact mayPoint_addr_join (.inl (hc.resolve_left nofun))
    | orNull => exact mayPoint_addr_join (.inl (hc.resolve_right nofun))
    | @array k _ _ _ hn hr =>
      have hjoin := ih k (by omega)
      exact mayPoint_combine hjoin hjoin hr hc

/-! ## Listing pointees -/

/-- What the elements of an array have in common; other values are their own.  It is right for
arrays that nest at most as deep as the first argument says. -/
def overallWith : Nat → Value → Except Fault Value
  | n + 1, .array a => do overallWith n (← readArray a .top)
  | _, v => pure v

/-- Nothing is known about a value or, if it is an array, about an element at an unknown index. -/
def IsUnknown (v : Value) : Prop := overallWith v.depth v = .ok .top

lemma depth_readArray {a : ArrayVal} {n : Nat} (ha : (array a).depth ≤ n + 1) {range : Interval}
    (h : readArray a range = .ok v) : v.depth ≤ n := by
  obtain ⟨l, hfold, hmem, -⟩ := read_eq h
  refine foldlM_induct (fun v x v' hx hv hstep => ?_) (Nat.zero_le n) hfold
  obtain ⟨i, -, -, rfl⟩ := hmem x hx
  exact depth_joinWith hv (depth_valueAt_le ha i) hstep

/-- The pointees of a value are all the cells it may point to, unless nothing is known about it. -/
lemma mem_pointeesWith {n : Nat} (hdepth : v.depth ≤ n) (hc : v.MayPoint c)
    (hknown : overallWith n v ≠ .ok .top) {cells : List Cell}
    (h : pointeesWith n v = .ok (some cells)) : c ∈ cells := by
  induction n using Nat.strongRecOn generalizing v with
  | ind n ih =>
    cases hc with
    | top => exact absurd (by cases n <;> rfl) hknown
    | anywhere => cases n <;> cases h
    | target hmem => cases n <;> cases h <;> exact mem_filterMap.2 ⟨_, hmem, rfl⟩
    | @element a i c hi hc =>
      obtain _ | n := n
      · exact absurd hdepth (not_depth_array_le_zero _)
      obtain ⟨w, hw, h⟩ := bind_eq_ok.1 h
      refine ih n (Nat.lt_succ_self n) (depth_readArray hdepth hw) ?_ (fun hover => hknown ?_) h
      · exact mayPoint_read (fun _ _ _ _ h => keepsPointers_joinWith _ h) hw hi
          Interval.contains_top hc
      · rw [overallWith, hw, ok_bind, hover]

end Value
end StaticAnalysis
