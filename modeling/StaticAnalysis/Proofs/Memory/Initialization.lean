import StaticAnalysis.Memory.Value
import StaticAnalysis.Proofs.Memory.Segments

/-!
# Initializing an array

Storing one value at all indices of an array in turn, upwards or downwards, leaves nothing of what
the elements were before (`ArrayVal.fill_exact`).  The split follows the last store, and the side
behind it holds the value alone: each store folds the old middle, which is the value, into that
side.
-/

namespace StaticAnalysis

open Fault StaticAnalysis.Interval Word
open List hiding range

namespace Segmented

variable {α : Type} {a : Segmented α} {bottom v : α} {join : α → α → Except Fault α}
  {range : Interval} {n k : Int}

lemma foldlM_join_self (hself : join v v = .ok v) {l : List α} (hl : ∀ x ∈ l, x = v) :
    l.foldlM join v = .ok v := by
  induction l with
  | nil => rfl
  | cons x l ih =>
    obtain ⟨rfl, hl⟩ := List.forall_mem_cons.1 hl
    rw [foldlM_cons, hself, ok_bind, ih hl]

/-- Reading gives the value that all elements read have in common. -/
lemma read_eq_of_valueAt {segs : List (Interval × α)} (hsegs : a.segments = .ok segs)
    (hbottom : join bottom v = .ok v) (hself : join v v = .ok v)
    (hsome : ∃ i, a.HasIndex i ∧ range.contains i)
    (hvalue : ∀ i, a.HasIndex i → range.contains i → a.valueAt i = v) :
    a.read bottom join range = .ok v := by
  obtain ⟨all, hall, -⟩ := bind_eq_ok.1 hsegs
  have hcovers := segments_spec hsegs
  rw [read, hall, ok_bind, hsegs, ok_bind, ← foldlM_map (f := Prod.snd)]
  generalize hmet : (segs.filter fun p => !(p.1.meet (range.meet all)).isEmpty) = met
  have hmem : ∀ x ∈ met.map (·.2), x = v := by
    simp only [← hmet, mem_map, mem_filter, Bool.not_eq_true']
    rintro x ⟨p, ⟨hp, hne⟩, rfl⟩
    obtain ⟨i, hi⟩ := exists_contains_meet hne
    rw [contains_meet, contains_meet] at hi
    obtain ⟨hindex, hpi⟩ := hcovers.hasIndex p hp i hi.1
    rw [← hpi, hvalue i hindex hi.2.1]
  have hne : met ≠ [] := by
    obtain ⟨i, hindex, hi⟩ := hsome
    obtain ⟨p, hp, hpi⟩ := hcovers.exists_segment i hindex
    refine ne_nil_of_mem (hmet ▸ List.mem_filter.2 ⟨hp, ?_⟩)
    rw [Bool.not_eq_true', isEmpty_of_contains (n := i)]
    rw [contains_meet, contains_meet, contains_indices hall]
    exact ⟨hpi, hi, hindex⟩
  cases met with
  | nil => exact absurd rfl hne
  | cons p met =>
    obtain ⟨hp, hmet⟩ := List.forall_mem_cons.1 hmem
    rw [map_cons, foldlM_cons, show p.2 = v from hp, hbottom, ok_bind, foldlM_join_self hself hmet]

/-! ## Stores in turn -/

section Stores

variable (hn : fits n = true) (h0 : 0 ≤ k) (hk : k < n)
include hn h0 hk

lemma indices_eq (hlength : a.length = some n) : a.indices = .ok (.range 0 (n - 1)) := by
  have hfits : fits (n - 1) = true := fits_of_between (by decide : fits 0 = true) hn
    (by omega) (by omega)
  simp [indices, last?, hlength, Word.sub, exact, hfits]

lemma exists_segments (left mid right : α) :
    ∃ segs, segments ⟨some n, .split k left mid right⟩ = .ok segs := by
  have hlow : fits (k - 1) = true := fits_of_between (by decide : fits (-1) = true) hn
    (by omega) (by omega)
  have hhigh : fits (k + 1) = true := fits_of_between (by decide : fits 0 = true) hn
    (by omega) (by omega)
  have hall := indices_eq (a := ⟨some n, .split k left mid right⟩) hn h0 hk rfl
  simp [segments, hall, below, above, Word.sub, Word.add, exact, hlow, hhigh]

variable (bottom v) in
/-- A store to a known index splits the array there. -/
lemma write_constant (hlength : a.length = some n) {left right : α}
    (hsides : a.sidesOf join k = .ok (left, right)) :
    a.write bottom join (.constant k) v true = .ok ⟨some n,
      .split k (if k ≤ 0 then bottom else left) v (if n - 1 ≤ k then bottom else right)⟩ := by
  have hlast : a.last? = .ok (some (n - 1)) := by
    simp [last?, hlength, Word.sub, exact, fits_of_between (by decide : fits 0 = true) hn
      (by omega : 0 ≤ n - 1) (by omega)]
  have hmeet : (constant k).meet (.range 0 (n - 1)) = .constant k := by
    rw [range, between_eq (by simp; omega) (by simp) (by simp), constant_eq,
      Interval.meet, max_eq_left (by simpa using h0), min_eq_left (by simp; omega),
      between_eq le_rfl (by simp) (by simp)]
  have hconst : (constant k).constant? = some k :=
    constant?_eq_some.2 (constant_eq k)
  have hne : (constant k).isEmpty = false := by simp
  rw [write, indices_eq hn h0 hk hlength, ok_bind]
  simp only [hmeet, hne, hconst, writeAt, hlast, hsides, hlength, Bool.false_eq_true, if_false,
    if_true, ok_bind, pure_eq_ok, decide_eq_true_eq]

end Stores

/-- An array after stores of `v` that came to `k` from the start, or from the end: the middle and
the side behind it hold `v` alone. -/
def Filled (up : Bool) (bottom v : α) (n k : Int) (a : Segmented α) : Prop :=
  ∃ left right, a = ⟨some n, .split k left v right⟩ ∧
    if up then left = (if k ≤ 0 then bottom else v) else right = (if n - 1 ≤ k then bottom else v)

/-- The index after `k` on the way up or down. -/
def nextIndex (up : Bool) (k : Int) : Int := if up then k + 1 else k - 1

lemma Filled.write {up : Bool} (h : Filled up bottom v n k a) (hbottom : join bottom v = .ok v)
    (hself : join v v = .ok v) (hn : fits n) (h0 : 0 ≤ nextIndex up k)
    (hk : nextIndex up k < n) :
    ∃ b, a.write bottom join (.constant (nextIndex up k)) v true = .ok b ∧
      Filled up bottom v n (nextIndex up k) b := by
  obtain ⟨left, right, rfl, hside⟩ := h
  have hfold (P : Prop) [Decidable P] : join (if P then bottom else v) v = .ok v := by
    split
    exacts [hbottom, hself]
  cases up with
  | true =>
    simp only [nextIndex, if_true] at h0 hk hside ⊢
    have hsides : sidesOf join ⟨some n, .split k left v right⟩ (k + 1) = .ok (v, right) := by
      simp [sidesOf, hside, hfold]
    exact ⟨_, write_constant bottom v hn h0 hk rfl hsides, _, _, rfl, rfl⟩
  | false =>
    simp only [nextIndex, Bool.false_eq_true, if_false] at h0 hk hside ⊢
    have hsides : sidesOf join ⟨some n, .split k left v right⟩ (k - 1) = .ok (left, v) := by
      simp [sidesOf, hside, hfold, show ¬ k < k - 1 by omega]
    exact ⟨_, write_constant bottom v hn h0 hk rfl hsides, _, _, rfl, rfl⟩

/-- Reads at and behind the last store give the value alone. -/
lemma Filled.read {up : Bool} (h : Filled up bottom v n k a) (hbottom : join bottom v = .ok v)
    (hself : join v v = .ok v) (hn : fits n) (h0 : 0 ≤ k) (hk : k < n)
    (hsome : ∃ i, range.contains i)
    (hrange : ∀ i, range.contains i → 0 ≤ i ∧ i < n ∧ if up then i ≤ k else k ≤ i) :
    a.read bottom join range = .ok v := by
  obtain ⟨left, right, rfl, hside⟩ := h
  obtain ⟨segs, hsegs⟩ := exists_segments hn h0 hk left v right
  have hindex : ∀ i, range.contains i = true → HasIndex ⟨some n, .split k left v right⟩ i := by
    intro i hi
    obtain ⟨hlow, hhigh, -⟩ := hrange i hi
    exact ⟨hlow, fun m hm => Option.some.inj hm ▸ hhigh⟩
  refine read_eq_of_valueAt hsegs hbottom hself
    (hsome.imp fun i hi => ⟨hindex i hi, hi⟩) fun i _ hi => ?_
  obtain ⟨hlow, hhigh, hbehind⟩ := hrange i hi
  unfold valueAt
  dsimp only
  cases up with
  | true =>
    simp only [if_true] at hside hbehind
    split
    · rw [hside, if_neg (by omega)]
    · rw [if_pos (by omega)]
  | false =>
    simp only [Bool.false_eq_true, if_false] at hside hbehind
    rw [if_neg (by omega)]
    split
    · rfl
    · rw [hside, if_neg (by omega)]

end Segmented

namespace ArrayVal

open Segmented

/-- The `j`-th index of an array of length `n`, from its start or from its end. -/
def turn (up : Bool) (n j : Nat) : Int := if up then j else n - 1 - j

/-- Store `v` at the first `j` indices from the start, or from the end. -/
def fill (up : Bool) (n : Nat) (v : Value) (j : Nat) (a : ArrayVal) : Except Fault ArrayVal :=
  (List.range j).foldlM (fun a i => a.write (.constant (turn up n i)) v true) a

variable {up : Bool} {n j : Nat} {v w : Value}

lemma join_bottom (v : Value) : Value.join .bottom v = .ok v := by
  unfold Value.join Value.joinWith
  rfl

lemma turn_lt (up : Bool) (h : j < n) : 0 ≤ turn up n j ∧ turn up n j < n := by
  unfold turn
  cases up <;> simp <;> omega

lemma fill_succ (a : ArrayVal) : fill up n v (j + 1) a =
    fill up n v j a >>= fun b => b.write (.constant (turn up n j)) v true := by
  rw [fill, range_succ, foldlM_append]
  simp only [foldlM_cons, foldlM_nil, bind_pure]
  rfl

lemma filled_fill (up : Bool) (hv : v.join v = .ok v) (hn : fits n) (hj : j < n) :
    ∃ a, fill up n v (j + 1) (.uniform (some n) w) = .ok a ∧
    Filled up .bottom v n (turn up n j) a := by
  have hin (i : Nat) (hi : i < n) := turn_lt up hi
  induction j with
  | zero =>
    have hsides : sidesOf Value.join (.uniform (some ↑n) w) (turn up n 0) = .ok (w, w) := rfl
    have hwrite := write_constant .bottom v hn (hin 0 hj).1 (hin 0 hj).2 rfl hsides
    refine ⟨_, (fill_succ _).trans hwrite, _, _, rfl, ?_⟩
    cases up <;> simp [turn]
  | succ j ih =>
    obtain ⟨a, ha, hfilled⟩ := ih (by omega)
    have hnext : turn up n (j + 1) = nextIndex up (turn up n j) := by
      unfold turn nextIndex
      cases up <;> simp
      omega
    have hj' := hin (j + 1) hj
    rw [hnext] at hj' ⊢
    obtain ⟨b, hb, hfilled⟩ := hfilled.write (join_bottom v) hv hn hj'.1 hj'.2
    refine ⟨b, ?_, hfilled⟩
    rw [fill_succ, ha, ok_bind, hnext]
    exact hb

lemma exists_contains {range : Interval} {m : Int} (hm : 0 ≤ m) (hne : range.isEmpty = false)
    (hle : range.le (.range 0 m)) : ∃ i, range.contains i := by
  obtain ⟨low, high⟩ := range
  have hlh := isEmpty_eq_false.1 hne
  rcases le_iff.1 hle with hempty | ⟨hlow, hhigh⟩
  · cases hne.symm.trans hempty
  rw [range, between_eq (by simpa using hm) (by simp) (by simp)] at hlow hhigh
  cases low with
  | negInf => simp at hlow
  | posInf => exact absurd (hlh.trans hhigh) (Bound.not_posInf_le_finite m)
  | finite l => exact ⟨l, contains_iff.2 ⟨le_rfl, hlh⟩⟩

/-- Storing a value at all indices of an array one after the other, upwards or downwards, is exact,
whatever the elements were.  After each number of stores, reads of the indices stored to give the
value; and in the end so does every read of an interval of indices. -/
theorem fill_exact {n : Nat} (hn : 0 < n) (hfits : Word.fits n = true) (w : Value) {v : Value}
    (hv : v.join v = .ok v) (up : Bool) :
    (∀ j ≤ n, ∃ a, fill up n v j (.uniform (some n) w) = .ok a ∧
      ∀ i < j, Value.readArray a (.constant (turn up n i)) = .ok v) ∧
    ∃ a, fill up n v n (.uniform (some n) w) = .ok a ∧
      ∀ range : Interval, range.isEmpty = false → range.le (.range 0 (n - 1)) = true →
        Value.readArray a range = .ok v := by
  constructor
  · intro j hj
    cases j with
    | zero => exact ⟨_, rfl, fun i hi => absurd hi (Nat.not_lt_zero i)⟩
    | succ j =>
      obtain ⟨a, ha, hfilled⟩ := filled_fill up (w := w) hv hfits hj
      obtain ⟨h0, hk⟩ := turn_lt up hj
      refine ⟨a, ha, fun i hi => hfilled.read (join_bottom v) hv hfits h0 hk ?_ fun m hm => ?_⟩
      · exact ⟨_, contains_constant.2 rfl⟩
      · obtain rfl := contains_constant.1 hm
        obtain ⟨h0', hk'⟩ := turn_lt up (hi.trans_le hj)
        refine ⟨h0', hk', ?_⟩
        cases up <;> simp [turn] <;> omega
  · obtain ⟨j, rfl⟩ : ∃ j, n = j + 1 := ⟨n - 1, by omega⟩
    obtain ⟨a, ha, hfilled⟩ := filled_fill up (w := w) hv hfits (Nat.lt_succ_self j)
    obtain ⟨h0, hk⟩ := turn_lt up (Nat.lt_succ_self j)
    refine ⟨a, ha, fun range hne hle => ?_⟩
    refine hfilled.read (join_bottom v) hv hfits h0 hk
      (exists_contains (by simp) hne hle) fun i hi => ?_
    have hindex := contains_of_le hle hi
    rw [Interval.range, contains_between] at hindex
    simp only [Bound.finite_le_finite] at hindex
    cases up <;> simp [turn] <;> omega

/-- An array of three elements that are known to be between zero and nine, and then all five. -/
theorem fill_exact_three : Word.fits 3 = true ∧ (Value.ofInt 5).join (.ofInt 5) = .ok (.ofInt 5) ∧
    ∃ a, fill false 3 (.ofInt 5) 3 (.uniform (some 3) (.int (.ofInterval (.range 0 9)))) = .ok a ∧
      Value.readArray a (.range 0 2) = .ok (.ofInt 5) := by
  have hself : (Value.ofInt 5).join (.ofInt 5) = .ok (.ofInt 5) := by decide +kernel
  obtain ⟨a, ha, hread⟩ := (fill_exact (n := 3) (by decide) (by decide)
    (.int (.ofInterval (.range 0 9))) hself false).2
  exact ⟨by decide, hself, a, ha, hread _ (by decide) (by decide)⟩

end ArrayVal
end StaticAnalysis
