import StaticAnalysis.Relation.Dbm
import StaticAnalysis.Proofs.Numeric.Bounds

/-!
# Closure of difference bound matrices

Closing a matrix replaces bounds by bounds that follow from them, so it never loses a valuation
(`Refines.holds`) and never weakens a bound (`Refines.le`).  Sums outside the word range give no
bound: a closed matrix may keep bounds that contradict each other.
-/

namespace StaticAnalysis

open Array Ceiling Option

namespace Ceiling

variable (c a b : Ceiling)

@[simp] lemma le_none : c.le none := by cases c <;> rfl

@[simp] lemma some_le_some {a b : Int} : le (some a) (some b) ↔ a ≤ b := by
  simp [le]

@[simp] lemma not_none_le_some (b : Int) : le none (some b) = false := rfl

@[simp] lemma le_self : c.le c := by cases c <;> simp

lemma le_trans {a b c : Ceiling} (hab : a.le b) (hbc : b.le c) : a.le c := by
  cases a <;> cases b <;> cases c <;> simp_all
  omega

lemma min_le_left : (a.min b).le a := by
  cases a <;> cases b <;> simp [min]
  split <;> omega

lemma le_max_left : a.le (a.max b) := by
  cases a <;> cases b <;> simp [max]
  split <;> omega

lemma le_max_right : b.le (a.max b) := by
  cases a <;> cases b <;> simp [max]
  split <;> omega

lemma max_comm : a.max b = b.max a := by
  cases a <;> cases b <;> simp [max]
  split <;> split <;> omega

def Admits (x : Int) : Prop := ∀ a, c = some a → x ≤ a

lemma admits_none (x : Int) : Ceiling.Admits none x := fun _ h => by cases h

lemma admits_some {a x : Int} : Ceiling.Admits (some a) x ↔ x ≤ a := by simp [Admits]

lemma Admits.mono {c d : Ceiling} {x : Int} (h : c.Admits x) (hcd : c.le d) : d.Admits x := by
  rintro b rfl
  cases c with
  | none => simp at hcd
  | some a => exact (h a rfl).trans (some_le_some.1 hcd)

lemma admits_min {c d : Ceiling} {x : Int} (hc : c.Admits x) (hd : d.Admits x) :
    (c.min d).Admits x := by
  cases c <;> cases d <;> simp_all [min, Admits]
  split <;> assumption

end Ceiling

lemma Word.add?_eq_some {a b c : Int} (h : add? a b = some c) : a + b = c := by
  unfold add? ofInt? at h
  split at h
  · cases h; rfl
  · cases h

namespace Dbm

variable {n : Nat} {m m' m'' : Dbm} {V : Nat → Int} {i j k : Nat}

/-- All rows have as many entries as there are rows. -/
structure Square (n : Nat) (m : Dbm) : Prop where
  dim : m.dim = n
  size : ∀ i < n, (m.row i).size = n

def Holds (m : Dbm) (V : Nat → Int) : Prop := ∀ i j, (m.bound i j).Admits (V j - V i)

lemma bound_ofFn (f : Nat → Nat → Ceiling) (n i j : Nat) :
    (ofFn n f).bound i j = if i < n ∧ j < n then f i j else none := by
  unfold bound row ofFn
  by_cases hi : i < n
  · by_cases hj : j < n
    · simp [hi, hj]
    · simp [hi, hj]
  · simp [hi]

lemma square_ofFn (n : Nat) (f : Nat → Nat → Ceiling) : Square n (ofFn n f) where
  dim := by simp [dim, ofFn]
  size i hi := by simp [row, ofFn, hi]

lemma Square.bound_eq_none (hm : Square n m) (h : ¬ (i < n ∧ j < n)) : m.bound i j = none := by
  unfold bound
  by_cases hi : i < n
  · have hj : ¬ j < n := fun hj => h ⟨hi, hj⟩
    rw [getD_eq_getD_getElem?, getElem?_eq_none (by rw [hm.size i hi]; omega)]
    rfl
  · have hrow : m.row i = #[] := by
      have hdim : m.rows.size = n := hm.dim
      unfold row
      rw [getD_eq_getD_getElem?, getElem?_eq_none (by omega)]
      rfl
    rw [hrow]
    rfl

lemma bound_map (hm : Square n m) (f : Nat → Nat → Ceiling → Ceiling) (i j : Nat) :
    (m.map f).bound i j = if i < n ∧ j < n then f i j (m.bound i j) else none := by
  unfold map
  rw [bound_ofFn, hm.dim]

lemma square_map (hm : Square n m) (f : Nat → Nat → Ceiling → Ceiling) : Square n (m.map f) := by
  unfold map
  rw [hm.dim]
  exact square_ofFn _ _

/-- The second matrix has the shape of the first, no weaker bounds, and all its valuations; those
considered take opposite values on twins. -/
structure Refines (n : Nat) (m m' : Dbm) : Prop where
  square : Square n m'
  le : ∀ i j, (m'.bound i j).le (m.bound i j) = true
  holds : ∀ V : Nat → Int, (∀ i, V (twin i) = -V i) → m.Holds V → m'.Holds V

lemma Refines.refl (hm : Square n m) : Refines n m m :=
  ⟨hm, fun _ _ => le_self _, fun _ _ h => h⟩

lemma Refines.trans (h : Refines n m m') (h' : Refines n m' m'') : Refines n m m'' :=
  ⟨h'.square, fun i j => le_trans (h'.le i j) (h.le i j),
    fun V hV hm => h'.holds V hV (h.holds V hV hm)⟩

lemma refines_foldl {step : Dbm → Nat → Dbm} (hstep : ∀ m x, Square n m → Refines n m (step m x))
    (l : List Nat) (hm : Square n m) : Refines n m (l.foldl step m) := by
  induction l generalizing m with
  | nil => exact .refl hm
  | cons x l ih => exact (hstep m x hm).trans (ih (hstep m x hm).square)

section

variable (hm : Square n m)
include hm

variable {d : Int}

lemma Square.lt_of_bound (hd : m.bound i j = some d) : i < n ∧ j < n := by
  by_contra h
  rw [hm.bound_eq_none h] at hd
  cases hd

lemma row_relaxRow (hd : m.bound i k = some d) (p : Nat) :
    (relaxRow k m i).row p = if p = i then Array.zipWith
      (fun direct rest => direct.min (rest.bind (Word.add? d))) (m.row i)
      (m.row k) else m.row p := by
  have hdim : m.rows.size = n := hm.dim
  have hi := (hm.lt_of_bound hd).1
  unfold relaxRow
  rw [hd]
  by_cases hp : p = i
  · subst hp
    simp [row, hdim, hi]
  · simp [row, hp, Ne.symm hp]

lemma bound_relaxRow (hd : m.bound i k = some d) (p q : Nat) : (relaxRow k m i).bound p q =
      if p = i ∧ q < n then (m.bound i q).min
        ((m.bound k q).bind (Word.add? d)) else m.bound p q := by
  obtain ⟨hi, hk⟩ := hm.lt_of_bound hd
  have hrow := row_relaxRow hm hd p
  unfold bound
  rw [hrow]
  by_cases hp : p = i
  · subst hp
    by_cases hq : q < n
    · have hpq : q < (m.row p).size := by rw [hm.size p hi]; exact hq
      have hkq : q < (m.row k).size := by rw [hm.size k hk]; exact hq
      simp [hq, hpq, hkq]
    · have hpq : ¬ q < (m.row p).size := by rw [hm.size p hi]; exact hq
      simp [hq, hpq]
  · simp [hp]

lemma square_relaxRow (hd : m.bound i k = some d) : Square n (relaxRow k m i) where
  dim := by
    have hdim : m.rows.size = n := hm.dim
    unfold relaxRow dim
    rw [hd]
    simpa using hdim
  size p hp := by
    rw [row_relaxRow hm hd]
    split
    · rw [size_zipWith, hm.size i (hm.lt_of_bound hd).1, hm.size k (hm.lt_of_bound hd).2,
        Nat.min_self]
    · exact hm.size p hp

end

lemma refines_relaxRow (k : Nat) (hm : Square n m) (i : Nat) : Refines n m (relaxRow k m i) := by
  cases hd : m.bound i k with
  | none =>
    unfold relaxRow
    rw [hd]
    exact .refl hm
  | some d =>
    have hbound := bound_relaxRow hm hd
    refine ⟨square_relaxRow hm hd, fun p q => ?_, fun V _ hV p q => ?_⟩
    · rw [hbound]
      split
      next h =>
        rw [h.1]
        exact min_le_left _ _
      next => exact le_self _
    · rw [hbound]
      split
      next h =>
        obtain ⟨rfl, -⟩ := h
        refine admits_min (hV p q) fun e he => ?_
        -- A detour through `k` is the sum of its two parts.
        obtain ⟨c, hc, he⟩ := bind_eq_some_iff.1 he
        have hfirst := hV p k d hd
        have hsecond := hV k q c hc
        have := Word.add?_eq_some he
        omega
      next => exact hV p q

lemma refines_shortestPaths (hm : Square n m) : Refines n m m.shortestPaths := by
  unfold shortestPaths
  refine refines_foldl (fun m k hm => ?_) _ hm
  unfold relaxThrough
  exact refines_foldl (fun m i hm => refines_relaxRow k hm i) _ hm

lemma refines_tighten (hm : Square n m) : Refines n m m.tighten := by
  unfold tighten
  refine ⟨square_map hm _, fun i j => ?_, fun V hV hholds i j => ?_⟩
  · rw [bound_map hm]
    split
    · split
      · cases m.bound i j with
        | none => rfl
        | some a =>
          simp only [map_some, some_le_some]
          omega
      · exact le_self _
    next h => rw [hm.bound_eq_none h]; rfl
  · rw [bound_map hm]
    split
    · split
      next hj =>
        subst hj
        have hij := hholds i (twin i)
        rw [hV i] at hij ⊢
        cases hc : m.bound i (twin i) with
        | none => exact admits_none _
        | some a =>
          rw [hc, admits_some] at hij
          simp only [map_some, admits_some]
          omega
      next => exact hholds i j
    · exact admits_none _

lemma refines_strengthen (hm : Square n m) : Refines n m m.strengthen := by
  unfold strengthen
  refine ⟨square_map hm _, fun i j => ?_, fun V hV hholds i j => ?_⟩
  · rw [bound_map hm]
    split
    · exact min_le_left _ _
    next h => rw [hm.bound_eq_none h]; rfl
  · rw [bound_map hm]
    split
    · refine admits_min (hholds i j) fun e he => ?_
      obtain ⟨a, ha, he⟩ := bind_eq_some_iff.1 he
      obtain ⟨b, hb, he⟩ := bind_eq_some_iff.1 he
      obtain ⟨c, hc, rfl⟩ := map_eq_some_iff.1 he
      have hi := hholds i (twin i) a ha
      have hj := hholds (twin j) j b hb
      rw [hV] at hi hj
      have := Word.add?_eq_some hc
      omega
    · exact admits_none _

/-- The closure of a matrix before its diagonal is looked at. -/
def paths (m : Dbm) : Dbm := m.shortestPaths.tighten.strengthen

lemma refines_paths (hm : Square n m) : Refines n m m.paths := by
  have h₁ := refines_shortestPaths hm
  have h₂ := refines_tighten h₁.square
  exact (h₁.trans h₂).trans (refines_strengthen h₂.square)

lemma Holds.contradiction? (h : m.Holds V) : m.contradiction? = none := by
  unfold Dbm.contradiction?
  rw [List.find?_eq_none]
  intro i _
  cases hc : m.bound i i with
  | none => simp
  | some a =>
    have := h i i a hc
    simp
    omega

lemma refines_clearDiagonal (hm : Square n m) (h : m.contradiction? = none) :
    Refines n m (m.clearDiagonal m.dim) := by
  unfold clearDiagonal
  rw [hm.dim]
  refine ⟨square_map hm _, fun i j => ?_, fun V hV hholds i j => ?_⟩
  · rw [bound_map hm]
    split
    next hij =>
      split
      next hdiag =>
        obtain ⟨rfl, -⟩ := hdiag
        have hne := (List.find?_eq_none.1 h) i (List.mem_range.2 (hm.dim ▸ hij.1))
        cases hc : m.bound i i with
        | none => rfl
        | some a =>
          rw [hc] at hne
          simpa using hne
      next => exact le_self _
    next h => rw [hm.bound_eq_none h]; rfl
  · rw [bound_map hm]
    split
    · split
      next hdiag =>
        obtain ⟨rfl, -⟩ := hdiag
        simp [admits_some]
      next => exact hholds i j
    · exact admits_none _

end Dbm
end StaticAnalysis
