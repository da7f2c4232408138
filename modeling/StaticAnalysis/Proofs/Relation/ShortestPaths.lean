import StaticAnalysis.Proofs.Relation.Closure

/-!
# Shortest paths in difference bound matrices

What a matrix says about a difference is best read as a relation: `m.Within i j x` if it has a bound
on `V j - V i` that is at most `x`.  A step of `shortestPaths` adds sums of two steps `i → k` and
`k → j`, so a relation that is closed under such sums and holds of the matrix holds of the result
(`within_shortestPaths_induct`).

The converse needs that no sum is left out (`pathsFit`) and that the diagonal of the result is not
negative.  A round then gives each difference the better of the old bound and the detour through `k`
(`within_relaxThrough`), although row `k` is itself rewritten in the middle of the round, and keeps
the matrix closed under the detours of the rounds before.
-/

namespace StaticAnalysis

open Ceiling List

namespace Ceiling

variable {c d : Ceiling} {x : Int}

lemma le_some_iff : c.le (some x) ↔ ∃ a, c = some a ∧ a ≤ x := by
  cases c <;> simp

lemma min_le_some_iff : (c.min d).le (some x) ↔ c.le (some x) ∨ d.le (some x) := by
  cases c <;> cases d <;> simp [min]
  split <;> omega

lemma eq_of_le_some_iff (h : ∀ x, c.le (some x) ↔ d.le (some x)) : c = d := by
  cases c with
  | none =>
    cases d with
    | none => rfl
    | some b => simpa using h b
  | some a =>
    cases d with
    | none => simpa using h a
    | some b =>
      have hab := (h b).2 (le_self _)
      have hba := (h a).1 (le_self _)
      rw [some_le_some] at hab hba
      rw [Int.le_antisymm hab hba]

lemma admits_iff_le_some : c.Admits x ↔ ∀ y, c.le (some y) → x ≤ y := by
  constructor
  · intro h y hy
    obtain ⟨a, ha, hay⟩ := le_some_iff.1 hy
    exact (h a ha).trans hay
  · intro h a ha
    exact h a (ha ▸ le_self _)

end Ceiling

lemma Word.add?_of_fits {a b : Int} (h : fits (a + b)) : add? a b = some (a + b) := by
  unfold add? ofInt?
  rw [if_pos h]

namespace Dbm

variable {n : Nat} {m m' : Dbm} {i j k : Nat} {x y : Int}

/-- The matrix has a bound on `V j - V i`, and it is at most `x`. -/
def Within (m : Dbm) (i j : Nat) (x : Int) : Prop := (m.bound i j).le (some x) = true

lemma within_iff : m.Within i j x ↔ ∃ a, m.bound i j = some a ∧ a ≤ x := le_some_iff

lemma within_of_bound {a : Int} (h : m.bound i j = some a) : m.Within i j a :=
  within_iff.2 ⟨a, h, le_rfl⟩

lemma Within.mono (h : m.Within i j x) (hxy : x ≤ y) : m.Within i j y :=
  Ceiling.le_trans h (some_le_some.2 hxy)

lemma Within.lt (h : m.Within i j x) (hm : Square n m) : i < n ∧ j < n := by
  obtain ⟨a, ha, -⟩ := within_iff.1 h
  exact hm.lt_of_bound ha

lemma Refines.within (h : Refines n m m') (hx : m.Within i j x) : m'.Within i j x :=
  Ceiling.le_trans (h.le i j) hx

lemma Holds.sub_le {V : Nat → Int} (h : m.Holds V) (hx : m.Within i j x) : V j - V i ≤ x := by
  obtain ⟨a, ha, hax⟩ := within_iff.1 hx
  exact (h i j a ha).trans hax

lemma holds_of_within {V : Nat → Int} (h : ∀ i j x, m.Within i j x → V j - V i ≤ x) : m.Holds V :=
  fun i j => admits_iff_le_some.2 (h i j)

lemma eq_of_within (hm : Square n m) (hm' : Square n m')
    (h : ∀ i j x, m.Within i j x ↔ m'.Within i j x) : m = m' := by
  have hbound : ∀ i j, m.bound i j = m'.bound i j :=
    fun i j => eq_of_le_some_iff (h i j)
  have hdim : m.rows.size = n := hm.dim
  have hdim' : m'.rows.size = n := hm'.dim
  have hrows : m.rows = m'.rows := by
    refine Array.ext (hdim.trans hdim'.symm) fun i hi hi' => ?_
    have hrow : m.row i = m.rows[i] := by simp [row, hi]
    have hrow' : m'.row i = m'.rows[i] := by simp [row, hi']
    rw [← hrow, ← hrow']
    have hsize := hm.size i (hdim ▸ hi)
    have hsize' := hm'.size i (hdim ▸ hi)
    refine Array.ext (hsize.trans hsize'.symm) fun j hj hj' => ?_
    have hij := hbound i j
    unfold bound at hij
    rw [Array.getD_eq_getD_getElem?, Array.getD_eq_getD_getElem?, Array.getElem?_eq_getElem hj,
      Array.getElem?_eq_getElem hj'] at hij
    exact hij
  cases m
  cases m'
  exact congrArg _ hrows

/-! ## Every new bound is a sum -/

/-- The step from `i` to `j` is within `x`, directly or with a stop at `k`. -/
def Detour (m : Dbm) (k i j : Nat) (x : Int) : Prop :=
  m.Within i j x ∨ ∃ y z, m.Within i k y ∧ m.Within k j z ∧ y + z ≤ x

lemma detour_of_relaxRow (hm : Square n m) {p q : Nat} (h : (relaxRow k m i).Within p q x) :
    m.Detour k p q x := by
  cases hd : m.bound i k with
  | none =>
    unfold relaxRow at h
    rw [hd] at h
    exact .inl h
  | some d =>
    unfold Within at h
    rw [bound_relaxRow hm hd] at h
    split at h
    next hpq =>
      obtain ⟨rfl, -⟩ := hpq
      rcases min_le_some_iff.1 h with h | h
      · exact .inl h
      · obtain ⟨s, hs, hsx⟩ := le_some_iff.1 h
        obtain ⟨c, hc, hsum⟩ := Option.bind_eq_some_iff.1 hs
        have := Word.add?_eq_some hsum
        exact .inr ⟨d, c, within_of_bound hd, within_of_bound hc, by omega⟩
    next => exact .inl h

/-- A relation on steps that holds of a matrix and is closed under sums holds of its shortest
paths. -/
lemma within_shortestPaths_induct {W : Nat → Nat → Int → Prop} (hm : Square n m)
    (hmono : ∀ {i j x y}, W i j x → x ≤ y → W i j y)
    (hsum : ∀ {i k j x y}, W i k x → W k j y → W i j (x + y))
    (hbase : ∀ {i j x}, m.Within i j x → W i j x) (h : m.shortestPaths.Within i j x) : W i j x := by
  -- The rows are relaxed one after the other, and each row keeps the invariant.
  have hrow : ∀ k m i, Square n m ∧ (∀ i j x, m.Within i j x → W i j x) →
      Square n (relaxRow k m i) ∧ ∀ p q x, (relaxRow k m i).Within p q x → W p q x := by
    rintro k m i ⟨hm, h⟩
    refine ⟨(refines_relaxRow k hm i).square, fun p q x hx => ?_⟩
    rcases detour_of_relaxRow hm hx with hx | ⟨y, z, hy, hz, hyz⟩
    · exact h p q x hx
    · exact hmono (hsum (h p k y hy) (h k q z hz)) hyz
  have hrun : Square n m.shortestPaths ∧ ∀ i j x, m.shortestPaths.Within i j x → W i j x :=
    foldlRecOn _ _ ⟨hm, fun i j x => hbase⟩ fun m h k _ =>
      foldlRecOn _ _ h fun m h i _ => hrow k m i h
  exact hrun.2 i j x h

/-! ## Every sum is taken in -/

/-- The sums formed when row `i` takes in the detours through `k` are words. -/
def rowFits (k : Nat) (m : Dbm) (i : Nat) : Bool :=
  (List.range m.dim).all fun j =>
    (m.bound i k).all fun a => (m.bound k j).all fun b => Word.fits (a + b)

def roundFits (m : Dbm) (k : Nat) : Bool :=
  (List.range m.dim).all fun i => rowFits k ((List.range i).foldl (relaxRow k) m) i

def pathsFit (m : Dbm) : Bool :=
  (List.range m.dim).all fun k => roundFits ((List.range k).foldl relaxThrough m) k

lemma refines_relaxThrough (hm : Square n m) (k : Nat) : Refines n m (m.relaxThrough k) :=
  refines_foldl (fun _ i hm => refines_relaxRow k hm i) _ hm

lemma within_relaxRow (hm : Square n m) (hfits : rowFits k m i) (p q : Nat) (x : Int) :
    (relaxRow k m i).Within p q x ↔ if p = i then m.Detour k p q x else m.Within p q x := by
  by_cases hp : p = i
  · rw [if_pos hp]
    subst hp
    refine ⟨detour_of_relaxRow hm, ?_⟩
    rintro (h | ⟨y, z, hy, hz, hyz⟩)
    · exact (refines_relaxRow k hm p).within h
    · obtain ⟨a, ha, hay⟩ := within_iff.1 hy
      obtain ⟨b, hb, hbz⟩ := within_iff.1 hz
      have hq := (hm.lt_of_bound hb).2
      have hfit : Word.fits (a + b) = true := by
        have := all_eq_true.1 hfits q (mem_range.2 (hm.dim.symm ▸ hq))
        rw [ha, hb] at this
        exact this
      unfold Within
      rw [bound_relaxRow hm ha, if_pos ⟨rfl, hq⟩, hb, min_le_some_iff]
      rw [Option.bind_some, Word.add?_of_fits hfit, some_le_some]
      omega
  · rw [if_neg hp]
    cases hd : m.bound i k with
    | none =>
      unfold relaxRow
      rw [hd]
    | some d =>
      unfold Within
      rw [bound_relaxRow hm hd, if_neg fun h => hp h.1]

lemma detour_start (hdiag : ∀ x, m.Within k k x → 0 ≤ x) : m.Detour k k j x ↔ m.Within k j x := by
  refine ⟨?_, .inl⟩
  rintro (h | ⟨y, z, hy, hz, hyz⟩)
  · exact h
  · have := hdiag y hy
    exact hz.mono (by omega)

section

variable (hm : Square n m) (hfits : roundFits m k) (hdiag : ∀ x, m.Within k k x → 0 ≤ x)
include hm hfits hdiag

/-- The rows before `l` have taken in the detours of round `k`, and the others are as they were. -/
lemma within_foldl_relaxRow {l : Nat} (hl : l ≤ n) (p q : Nat) (x : Int) :
    ((List.range l).foldl (relaxRow k) m).Within p q x ↔
      if p < l then m.Detour k p q x else m.Within p q x := by
  induction l generalizing p q x with
  | zero => rfl
  | succ l ih =>
    have ih := ih (by omega)
    have hrow : rowFits k ((List.range l).foldl (relaxRow k) m) l = true :=
      all_eq_true.1 hfits l (mem_range.2 (hm.dim.symm ▸ hl))
    rw [range_succ, foldl_append, foldl_cons, foldl_nil,
      within_relaxRow (refines_foldl (fun _ i hm => refines_relaxRow k hm i) _ hm).square hrow]
    by_cases hp : p = l
    · subst hp
      rw [if_pos rfl, if_pos (by omega)]
      -- Row `k` reads the same before and after its own turn.
      have hk : ∀ z, ((List.range p).foldl (relaxRow k) m).Within k q z ↔ m.Within k q z := by
        intro z
        rw [ih]
        split
        · exact detour_start hdiag
        · rfl
      unfold Detour
      simp only [hk, ih, lt_irrefl, if_false]
    · rw [if_neg hp, ih]
      by_cases hlt : p < l
      · rw [if_pos hlt, if_pos (by omega)]
      · rw [if_neg hlt, if_neg (by omega)]

lemma within_relaxThrough (p q : Nat) (x : Int) :
    (m.relaxThrough k).Within p q x ↔ m.Detour k p q x := by
  unfold relaxThrough
  rw [hm.dim, within_foldl_relaxRow hm hfits hdiag le_rfl]
  split
  · rfl
  next hp =>
    refine ⟨.inl, ?_⟩
    rintro (h | ⟨y, z, hy, -, -⟩)
    · exact h
    · exact absurd (hy.lt hm).1 hp

/-! ## The result is closed -/

end

/-- A stop at `k` gains nothing. -/
def ClosedAt (m : Dbm) (k : Nat) : Prop :=
  ∀ ⦃i j x y⦄, m.Within i k x → m.Within k j y → m.Within i j (x + y)

section Round

variable (hw : ∀ i j x, m'.Within i j x ↔ m.Detour k i j x) (hdiag : ∀ x, m.Within k k x → 0 ≤ x)
include hw hdiag

lemma closedAt_of_round : m'.ClosedAt k := by
  have hto : ∀ {i x}, m'.Within i k x → m.Within i k x := by
    intro i x h
    rcases (hw i k x).1 h with h | ⟨y, z, hy, hz, hyz⟩
    · exact h
    · have := hdiag z hz
      exact hy.mono (by omega)
  intro i j x y hx hy
  rw [hw] at hy ⊢
  exact .inr ⟨x, y, hto hx, (detour_start hdiag).1 hy, le_rfl⟩

lemma ClosedAt.round {l : Nat} (h : m.ClosedAt l) : m'.ClosedAt l := by
  intro i j x y hx hy
  rw [hw] at hx hy ⊢
  rcases hx with hx | ⟨x₁, x₂, hx₁, hx₂, hxx⟩
  · rcases hy with hy | ⟨y₁, y₂, hy₁, hy₂, hyy⟩
    · exact .inl (h hx hy)
    · exact .inr ⟨x + y₁, y₂, h hx hy₁, hy₂, by omega⟩
  · rcases hy with hy | ⟨y₁, y₂, hy₁, hy₂, hyy⟩
    · exact .inr ⟨x₁, x₂ + y, hx₁, h hx₂ hy, by omega⟩
    · -- The way from `k` over `l` back to `k` is a cycle, which is left out.
      have := hdiag (x₂ + y₁) (h hx₂ hy₁)
      exact .inr ⟨x₁, y₂, hx₁, hy₂, by omega⟩

end Round

lemma closedAt_foldl_relaxThrough (hm : Square n m) (hfits : m.pathsFit) {r : Nat} (hr : r ≤ n)
    (hdiag : ∀ i x, ((List.range r).foldl relaxThrough m).Within i i x → 0 ≤ x) :
    ∀ l < r, ((List.range r).foldl relaxThrough m).ClosedAt l := by
  induction r with
  | zero => exact fun l hl => absurd hl (by omega)
  | succ r ih =>
    have hsquare := (refines_foldl (fun _ k hm => refines_relaxThrough hm k)
      (List.range r) hm).square
    have hround : roundFits ((List.range r).foldl relaxThrough m) r = true :=
      all_eq_true.1 hfits r (mem_range.2 (hm.dim.symm ▸ hr))
    rw [range_succ, foldl_append, foldl_cons, foldl_nil] at hdiag ⊢
    have hdiag' : ∀ i x, ((List.range r).foldl relaxThrough m).Within i i x → 0 ≤ x :=
      fun i x hx => hdiag i x ((refines_relaxThrough hsquare r).within hx)
    have hw := within_relaxThrough hsquare hround (hdiag' r)
    intro l hl
    by_cases hlr : l = r
    · subst hlr
      exact closedAt_of_round hw (hdiag' l)
    · exact (ih (by omega) hdiag' l (by omega)).round hw (hdiag' r)

lemma closedAt_shortestPaths (hm : Square n m) (hfits : m.pathsFit)
    (hdiag : ∀ i x, m.shortestPaths.Within i i x → 0 ≤ x) (k : Nat) :
    m.shortestPaths.ClosedAt k := by
  intro i j x y hx hy
  have hk := (hx.lt (refines_shortestPaths hm).square).2
  unfold shortestPaths at *
  rw [hm.dim] at *
  exact closedAt_foldl_relaxThrough hm hfits le_rfl hdiag k hk hx hy

end Dbm
end StaticAnalysis
