import StaticAnalysis.Proofs.Relation.ShortestPaths

/-!
# Tight closure

In the matrix of an octagon the bound on `V (twin i) - V i` is one on `-2 * V i`.  A matrix is tight
if it is closed under sums and under adding up the halves of two such bounds, each rounded down
(`Tight.halves`).

One pass is enough to get there.  Rounding down and adding halves gives the matrix
`m i j ⊓ (half i + half (twin j))`, where `half i` bounds `-V i` (`within_halved`), and closure
under sums survives because a step `i → k` in front of `half k` is already in `half i`
(`Half.cons`).
-/

namespace StaticAnalysis

open Ceiling List Option
namespace Dbm

variable {n : Nat} {m : Dbm} {i j k : Nat} {x y h g : Int}

@[simp] lemma twin_twin (i : Nat) : twin (twin i) = i := by
  unfold twin
  split <;> split <;> omega

lemma twin_div_two (i : Nat) : twin i / 2 = i / 2 := by
  unfold twin
  split <;> omega

lemma eq_or_eq_twin (h : i / 2 = j / 2) : i = j ∨ i = twin j := by
  unfold twin
  split <;> omega

/-- Zeros on the diagonal, and the same bounds on the negated quantities. -/
structure Coherent (n : Nat) (m : Dbm) : Prop where
  square : Square n m
  diagonal : ∀ i < n, m.bound i i = some 0
  mirrored : ∀ i j, m.bound (twin j) (twin i) = m.bound i j

lemma Coherent.within (hm : Coherent n m) (hx : m.Within i j x) : m.Within (twin j) (twin i) x := by
  unfold Within
  rw [hm.mirrored]
  exact hx

lemma Coherent.of_within (hm : Square n m) (hdiag : ∀ i < n, m.bound i i = some 0)
    (hco : ∀ i j x, m.Within i j x → m.Within (twin j) (twin i) x) : Coherent n m := by
  refine ⟨hm, hdiag, fun i j => eq_of_le_some_iff fun x => ⟨fun hx => ?_, hco i j x⟩⟩
  have := hco _ _ x hx
  rwa [twin_twin, twin_twin] at this

/-- A coherent matrix that is closed under sums and under adding up halves. -/
structure Tight (n : Nat) (m : Dbm) : Prop extends Coherent n m where
  triangle : ∀ {i k j x y}, m.Within i k x → m.Within k j y → m.Within i j (x + y)
  halves : ∀ {i j x y}, m.Within i (twin i) x → m.Within (twin j) j y → m.Within i j (x / 2 + y / 2)

lemma Tight.nonneg (hm : Tight n m) (h : m.Within i i x) : 0 ≤ x := by
  obtain ⟨a, ha, hax⟩ := within_iff.1 h
  rw [hm.diagonal i (hm.square.lt_of_bound ha).1] at ha
  cases ha
  exact hax

/-! ## Rounding down and adding halves -/

/-- The integer `-V i` is at most `h`, by the bound on its double. -/
def Half (m : Dbm) (i : Nat) (h : Int) : Prop := m.Within i (twin i) (2 * h + 1)

lemma Half.mono (hh : m.Half i h) (hgh : h ≤ g) : m.Half i g := Within.mono hh (by omega)

lemma Within.half (hx : m.Within i (twin i) x) : m.Half i (x / 2) := hx.mono (by omega)

lemma within_tighten (hm : Square n m) :
    m.tighten.Within i j x ↔ if j = twin i then m.Half i (x / 2) else m.Within i j x := by
  unfold tighten Within
  rw [bound_map hm]
  by_cases hj : j = twin i
  · subst hj
    rw [if_pos rfl, if_pos rfl]
    unfold Half Within
    split
    · cases m.bound i (twin i) with
      | none => simp
      | some a =>
        simp only [map_some, Ceiling.some_le_some]
        omega
    next hlt => rw [hm.bound_eq_none hlt]; simp
  · rw [if_neg hj, if_neg hj]
    split
    · rfl
    next hlt => rw [hm.bound_eq_none hlt]

lemma within_tighten_twin (hm : Square n m) : m.tighten.Within i (twin i) x ↔ m.Half i (x / 2) := by
  rw [within_tighten hm, if_pos rfl]

lemma within_of_strengthen (hm : Square n m) (hx : m.strengthen.Within i j x) :
    m.Within i j x ∨
      ∃ y z, m.Within i (twin i) y ∧ m.Within (twin j) j z ∧ (y + z) / 2 ≤ x := by
  unfold strengthen Within at hx
  rw [bound_map hm] at hx
  split at hx
  · rcases min_le_some_iff.1 hx with hx | hx
    · exact .inl hx
    · obtain ⟨s, hs, hsx⟩ := le_some_iff.1 hx
      obtain ⟨a, ha, hs⟩ := bind_eq_some_iff.1 hs
      obtain ⟨b, hb, hs⟩ := bind_eq_some_iff.1 hs
      obtain ⟨c, hc, rfl⟩ := map_eq_some_iff.1 hs
      rw [← Word.add?_eq_some hc] at hsx
      exact .inr ⟨a, b, within_of_bound ha, within_of_bound hb, hsx⟩
  · simp at hx

def halvesFit (m : Dbm) : Bool :=
  (List.range m.dim).all fun i => (List.range m.dim).all fun j =>
    (m.bound i (twin i)).all fun a => (m.bound (twin j) j).all fun b => Word.fits (a + b)

lemma within_strengthen (hm : Square n m) (hfits : m.halvesFit) {z : Int}
    (hy : m.Within i (twin i) y) (hz : m.Within (twin j) j z) :
    m.strengthen.Within i j ((y + z) / 2) := by
  obtain ⟨a, ha, hay⟩ := within_iff.1 hy
  obtain ⟨b, hb, hbz⟩ := within_iff.1 hz
  have hi := (hm.lt_of_bound ha).1
  have hj := (hm.lt_of_bound hb).2
  have hfit : Word.fits (a + b) = true := by
    have := List.all_eq_true.1 (List.all_eq_true.1 hfits i (mem_range.2 (hm.dim.symm ▸ hi))) j
      (mem_range.2 (hm.dim.symm ▸ hj))
    rw [ha, hb] at this
    exact this
  unfold strengthen Within
  rw [bound_map hm, if_pos ⟨hi, hj⟩, ha, hb, min_le_some_iff]
  right
  rw [bind_some, bind_some, Word.add?_of_fits hfit, map_some, Ceiling.some_le_some]
  omega

/-- Both passes together: the bound on a difference or the sum of the halves for its two
quantities. -/
lemma within_halved (hm : Square n m) (hfits : m.tighten.halvesFit) :
    m.tighten.strengthen.Within i j x ↔
      m.Within i j x ∨ ∃ h g, m.Half i h ∧ m.Half (twin j) g ∧ h + g ≤ x := by
  have ht := refines_tighten hm
  constructor
  · intro hstrong
    rcases within_of_strengthen ht.square hstrong with hx | ⟨y, z, hy, hz, hyz⟩
    · rw [within_tighten hm] at hx
      split at hx
      next hj =>
        -- An even bound is the sum of its two halves.
        subst hj
        refine .inr ⟨x / 2, x / 2, hx, ?_, by omega⟩
        rw [twin_twin]
        exact hx
      next => exact .inl hx
    · have hj := (within_tighten_twin hm (i := twin j) (x := z)).1 (by rwa [twin_twin])
      exact .inr ⟨y / 2, z / 2, (within_tighten_twin hm).1 hy, hj, by omega⟩
  · rintro (hx | ⟨h, g, hh, hg, hhg⟩)
    · exact (refines_strengthen ht.square).within (ht.within hx)
    · have hi : m.tighten.Within i (twin i) (2 * h) :=
        (within_tighten_twin hm).2 (hh.mono (by omega))
      have hj : m.tighten.Within (twin j) j (2 * g) := by
        have := (within_tighten_twin hm (i := twin j) (x := 2 * g)).2 (hg.mono (by omega))
        rwa [twin_twin] at this
      exact (within_strengthen ht.square hfits hi hj).mono (by omega)

section Halved

variable {m' : Dbm} (hsum : ∀ k, m.ClosedAt k)
  (hco : ∀ {i j x}, m.Within i j x → m.Within (twin j) (twin i) x)
include hsum hco

lemma Half.cons (hx : m.Within i k x) (hh : m.Half k h) : m.Half i (x + h) := by
  have hback : m.Within (twin k) (twin i) x := hco hx
  exact Within.mono (hsum _ hx (hsum _ hh hback)) (by omega)

variable
  (hw : ∀ i j x, m'.Within i j x ↔ m.Within i j x ∨ ∃ h g, m.Half i h ∧ m.Half (twin j) g ∧
  h + g ≤ x)

include hw

omit hsum in
lemma coherent_halved (hx : m'.Within i j x) : m'.Within (twin j) (twin i) x := by
  rw [hw] at hx ⊢
  rcases hx with hx | ⟨h, g, hh, hg, hhg⟩
  · exact .inl (hco hx)
  · refine .inr ⟨g, h, hg, ?_, by omega⟩
    rw [twin_twin]
    exact hh

lemma closedAt_halved (hdiag : ∀ i x, m'.Within i i x → 0 ≤ x) (k : Nat) : m'.ClosedAt k := by
  intro i j x y hx hy
  rw [hw] at hx hy ⊢
  rcases hx with hx | ⟨h, g, hh, hg, hhg⟩
  · rcases hy with hy | ⟨h', g', hh', hg', hhg'⟩
    · exact .inl (hsum k hx hy)
    · exact .inr ⟨x + h', g', Half.cons hsum hco hx hh', hg', by omega⟩
  · rcases hy with hy | ⟨h', g', hh', hg', hhg'⟩
    · exact .inr ⟨h, y + g, hh, Half.cons hsum hco (hco hy) hg, by omega⟩
    · -- The two halves for `k` and its twin are a bound on the diagonal.
      have := hdiag k (h' + g) ((hw k k _).2 (.inr ⟨h', g, hh', hg, le_rfl⟩))
      exact .inr ⟨h, g', hh, hg', by omega⟩

omit hsum hco in
lemma half_of_halved (hx : m'.Within i (twin i) x) : m.Half i (x / 2) := by
  rcases (hw i (twin i) x).1 hx with hx | ⟨h, g, hh, hg, hhg⟩
  · exact hx.half
  · rw [twin_twin] at hg
    rcases le_total h g with hle | hle
    · exact hh.mono (by omega)
    · exact hg.mono (by omega)

omit hsum hco in
lemma halves_halved (hx : m'.Within i (twin i) x) (hy : m'.Within (twin j) j y) :
    m'.Within i j (x / 2 + y / 2) := by
  have hj : m.Half (twin j) (y / 2) := half_of_halved hw (by rwa [twin_twin])
  exact (hw i j _).2 (.inr ⟨x / 2, y / 2, half_of_halved hw hx, hj, le_rfl⟩)

end Halved

/-! ## Closing -/

/-- The sums formed when a matrix is closed are words. -/
def sumsFit (m : Dbm) : Bool := m.pathsFit && m.shortestPaths.tighten.halvesFit

lemma coherent_shortestPaths (hm : Square n m)
    (hco : ∀ {i j x}, m.Within i j x → m.Within (twin j) (twin i) x)
    (hsum : ∀ k, m.shortestPaths.ClosedAt k) (hx : m.shortestPaths.Within i j x) :
    m.shortestPaths.Within (twin j) (twin i) x := by
  refine within_shortestPaths_induct (W := fun i j x => m.shortestPaths.Within (twin j) (twin i) x)
    hm (fun h hxy => h.mono hxy) (fun hx hy => ?_)
    (fun hx => (refines_shortestPaths hm).within (hco hx)) hx
  exact (hsum _ hy hx).mono (by omega)

lemma nonneg_of_contradiction? (hm : Square n m) (hc : m.contradiction? = none) (i : Nat) (x : Int)
    (hx : m.Within i i x) : 0 ≤ x := by
  obtain ⟨a, ha, hax⟩ := within_iff.1 hx
  have hi := (hm.lt_of_bound ha).1
  have hne := find?_eq_none.1 hc i (mem_range.2 (hm.dim.symm ▸ hi))
  rw [ha] at hne
  have : 0 ≤ a := by simpa using hne
  omega

lemma clearDiagonal_of_diagonal (hm : Square n m) (hdiag : ∀ i < n, m.bound i i = some 0)
    (k : Nat) : m.clearDiagonal k = m := by
  refine eq_of_within (square_map hm _) hm fun i j x => ?_
  unfold clearDiagonal Within
  rw [bound_map hm]
  split
  next hij =>
    split
    next h => rw [← h.1, hdiag i hij.1]
    next => rfl
  next hij => rw [hm.bound_eq_none hij]

/-- One pass makes a coherent matrix tight if no sum is left out and no contradiction shows. -/
lemma Coherent.tight_paths (hm : Coherent n m) (hfits : m.sumsFit)
    (hc : m.paths.contradiction? = none) : Tight n m.paths := by
  obtain ⟨hpaths, hhalves⟩ := Bool.and_eq_true_iff.1 hfits
  have hs := refines_shortestPaths hm.square
  have hr := refines_paths hm.square
  have hnonneg : ∀ i x, m.paths.Within i i x → 0 ≤ x := nonneg_of_contradiction? hr.square hc
  have hw : ∀ i j x, m.paths.Within i j x ↔ m.shortestPaths.Within i j x ∨
      ∃ h g, m.shortestPaths.Half i h ∧ m.shortestPaths.Half (twin j) g ∧ h + g ≤ x :=
    fun i j x => within_halved hs.square hhalves
  have hsum := closedAt_shortestPaths hm.square hpaths
    fun i x hx => hnonneg i x ((hw i i x).2 (.inl hx))
  have hco : ∀ {i j x}, m.shortestPaths.Within i j x → m.shortestPaths.Within (twin j) (twin i) x :=
    coherent_shortestPaths hm.square hm.within hsum
  refine ⟨.of_within hr.square (fun i hi => ?_) fun i j x => coherent_halved hco hw,
    fun hx hy => closedAt_halved hsum hco hw hnonneg _ hx hy, halves_halved hw⟩
  obtain ⟨a, ha, hle⟩ := within_iff.1 (hr.within (within_of_bound (hm.diagonal i hi)))
  have := hnonneg i a (within_of_bound ha)
  rw [ha, show a = 0 by omega]

/-! ## Closing again -/

section

variable (hm : Tight n m)
include hm

lemma Tight.shortestPaths_eq : m.shortestPaths = m := by
  have hs := refines_shortestPaths hm.square
  refine eq_of_within hs.square hm.square fun i j x => ⟨fun hx => ?_, hs.within⟩
  exact within_shortestPaths_induct hm.square Within.mono hm.triangle id hx

lemma Tight.tighten_eq : m.tighten = m := by
  have ht := refines_tighten hm.square
  refine eq_of_within ht.square hm.square fun i j x => ⟨fun hx => ?_, ht.within⟩
  rw [within_tighten hm.square] at hx
  split at hx
  next hj =>
    subst hj
    have hback : m.Within (twin (twin i)) (twin i) (2 * (x / 2) + 1) := by rwa [twin_twin]
    exact (hm.halves hx hback).mono (by omega)
  next => exact hx

lemma Tight.strengthen_eq : m.strengthen = m := by
  have hs := refines_strengthen hm.square
  refine eq_of_within hs.square hm.square fun i j x => ⟨fun hx => ?_, hs.within⟩
  rcases within_of_strengthen hm.square hx with hx | ⟨y, z, hy, hz, hyz⟩
  · exact hx
  · exact (hm.halves hy hz).mono (by omega)

lemma Tight.contradiction?_eq : m.contradiction? = none := by
  unfold contradiction?
  rw [find?_eq_none]
  intro i hi
  rw [hm.diagonal i (hm.square.dim ▸ mem_range.1 hi)]
  simp

end

end Dbm
end StaticAnalysis
