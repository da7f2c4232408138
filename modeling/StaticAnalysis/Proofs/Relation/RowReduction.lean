import Mathlib.Algebra.BigOperators.Field
import Mathlib.Algebra.Field.Rat
import Mathlib.Tactic.LinearCombination
import Mathlib.Tactic.Ring
import StaticAnalysis.Relation.Affine

/-!
# Solutions of reduced systems

Row reduction keeps the solutions of a system and brings it into a form in which every row has a
pivot: an entry one in a column that is zero in all other rows, further to the right in each row
(`Echelon`, `rowReduce_spec`).  One solution is zero outside of the pivot columns, the vectors that
the system sends to zero are combinations of one vector per free column, and a row follows from the
system exactly if nothing is left of it once the pivot columns are eliminated.
-/

namespace StaticAnalysis

open StaticAnalysis.Affine Finset Option Row
open List hiding forall_mem_cons forall_mem_map mem_range product all_eq_true

namespace Row

/-- The left-hand side of an equation in `n` unknowns. -/
def product (n : Nat) (r : Row) (x : Nat → Rat) : Rat := ∑ c ∈ Finset.range n, r.entry c * x c

def Holds (n : Nat) (r : Row) (x : Nat → Rat) : Prop := r.product n x = r.entry n

variable {n : Nat} {r s p : Row} {x y : Nat → Rat} {c col : Nat}

/-! ## Operations on rows -/

lemma entry_eq_zero (h : r.length ≤ c) : r.entry c = 0 := by
  simp [entry, h]

lemma length_minus (h : r.length = s.length) (q : Rat) : (r.minus q s).length = r.length := by
  simp [minus, h]

lemma entry_minus (h : r.length = s.length) (q : Rat) (c : Nat) :
    (r.minus q s).entry c = r.entry c - q * s.entry c := by
  by_cases hc : c < r.length
  · have hs : c < s.length := h ▸ hc
    simp [entry, minus, hc, hs]
  · rw [entry_eq_zero (by rw [length_minus h]; omega), entry_eq_zero (by omega),
      entry_eq_zero (by omega)]
    ring

lemma entry_divide (r : Row) (q : Rat) (c : Nat) : (r.divide q).entry c = r.entry c / q := by
  by_cases hc : c < r.length
  · simp [entry, divide, hc]
  · rw [entry_eq_zero (by simp [divide]; omega), entry_eq_zero (by omega), zero_div]

lemma product_minus (h : r.length = s.length) (q : Rat) :
    (r.minus q s).product n x = r.product n x - q * s.product n x := by
  unfold product
  rw [mul_sum, ← sum_sub_distrib]
  refine sum_congr rfl fun c _ => ?_
  rw [entry_minus h]
  ring

lemma product_divide (r : Row) (q : Rat) : (r.divide q).product n x = r.product n x / q := by
  unfold product
  rw [sum_div]
  refine sum_congr rfl fun c _ => ?_
  rw [entry_divide]
  ring

lemma product_add (r : Row) (x y : Nat → Rat) :
    r.product n (fun c => x c + y c) = r.product n x + r.product n y := by
  unfold product
  rw [← sum_add_distrib]
  exact sum_congr rfl fun c _ => mul_add _ _ _

lemma product_sub (r : Row) (x y : Nat → Rat) :
    r.product n (fun c => x c - y c) = r.product n x - r.product n y := by
  unfold product
  rw [← sum_sub_distrib]
  exact sum_congr rfl fun c _ => mul_sub _ _ _

lemma product_eq_zero_of (h : ∀ c < n, r.entry c = 0 ∨ x c = 0) : r.product n x = 0 :=
  sum_eq_zero fun c hc => mul_eq_zero.2 (h c (mem_range.1 hc))

lemma product_eq_single (hc : c < n) (h : ∀ d < n, d ≠ c → r.entry d = 0 ∨ x d = 0) :
    r.product n x = r.entry c * x c :=
  sum_eq_single c (fun d hd hne => mul_eq_zero.2 (h d (mem_range.1 hd) hne))
    fun h => absurd (mem_range.2 hc) h

lemma product_congr (h : ∀ c < n, x c = y c) : r.product n x = r.product n y :=
  sum_congr rfl fun c hc => by rw [h c (mem_range.1 hc)]

lemma holds_congr (h : ∀ c < n, x c = y c) : r.Holds n x ↔ r.Holds n y := by
  unfold Holds
  rw [product_congr h]

lemma holds_eliminate (h : r.length = p.length) (hp : p.Holds n x) :
    (p.eliminate col r).Holds n x ↔ r.Holds n x := by
  unfold Holds eliminate at *
  rw [product_minus h, entry_minus h, hp]
  constructor <;> intro h <;> linear_combination h

lemma holds_divide {q : Rat} (hq : q ≠ 0) : (r.divide q).Holds n x ↔ r.Holds n x := by
  unfold Holds
  rw [product_divide, entry_divide, div_left_inj' hq]

lemma pivot?_eq_some : r.pivot? n = some c ↔ c < n ∧ r.entry c ≠ 0 ∧ ∀ d < c, r.entry d = 0 := by
  unfold pivot?
  rw [find?_range_eq_some]
  simp only [bne_iff_ne, ne_eq, Bool.not_eq_true', bne_eq_false_iff_eq, List.mem_range]
  tauto

end Row

/-! ## Reduced systems -/

/-- Every row has its pivot, an entry one, in a column that is zero in all other rows. -/
structure Reduced (n : Nat) (rows : List Row) : Prop where
  length : ∀ r ∈ rows, r.length = n + 1
  pivot : ∀ r ∈ rows, ∃ c, r.pivot? n = some c ∧ r.entry c = 1
  distinct : rows.Pairwise fun r s => r.pivot? n ≠ s.pivot? n
  clear : ∀ r ∈ rows, ∀ s ∈ rows, ∀ c, s.pivot? n = some c → r.pivot? n ≠ some c → r.entry c = 0

/-- The pivots move to the right from row to row. -/
def Ascending (n : Nat) (rows : List Row) : Prop :=
  rows.Pairwise fun r s => ∀ c d, r.pivot? n = some c → s.pivot? n = some d → c < d

/-- Reduced row echelon form: every row has a pivot, the pivots are one and move to the right from
row to row, and the column of a pivot is zero in all other rows. -/
structure Echelon (n : Nat) (rows : List Row) : Prop extends Reduced n rows where
  ascending : Ascending n rows

lemma echelon_nil (n : Nat) : Echelon n [] :=
  ⟨⟨by simp, by simp, .nil, by simp⟩, .nil⟩

/-- A row with a one in column `col` and zeros before it. -/
structure PivotRow (n col : Nat) (p : Row) : Prop where
  lt : col < n
  length : p.length = n + 1
  one : p.entry col = 1
  zero : ∀ c < col, p.entry c = 0

namespace PivotRow

variable {n col : Nat} {p q : Row}

section

variable (hp : PivotRow n col p)
include hp

lemma pivot? : p.pivot? n = some col :=
  pivot?_eq_some.2 ⟨hp.lt, by simp [hp.one], hp.zero⟩

section

variable (hq : q.length = n + 1)
include hq

lemma length_eliminate : (p.eliminate col q).length = n + 1 :=
  (length_minus (hq.trans hp.length.symm) _).trans hq

lemma entry_eliminate_of_lt {c : Nat} (hc : c < col) : (p.eliminate col q).entry c = q.entry c := by
  unfold eliminate
  rw [entry_minus (hq.trans hp.length.symm), hp.zero c hc, mul_zero, sub_zero]

lemma entry_eliminate_self : (p.eliminate col q).entry col = 0 := by
  unfold eliminate
  rw [entry_minus (hq.trans hp.length.symm), hp.one, mul_one, sub_self]

/-- Elimination changes nothing before the column, so pivots there stay. -/
lemma pivot?_eliminate {c : Nat}
    (hc : q.pivot? n = some c) (hlt : c < col) : (p.eliminate col q).pivot? n = some c := by
  obtain ⟨hcn, hne, hzero⟩ := pivot?_eq_some.1 hc
  refine pivot?_eq_some.2 ⟨hcn, ?_, fun d hd => ?_⟩
  · rwa [hp.entry_eliminate_of_lt hq hlt]
  · rw [hp.entry_eliminate_of_lt hq (hd.trans hlt), hzero d hd]

end

/-- A system in echelon form with pivots before the column stays so with one more pivot row. -/
lemma echelon_concat {rows : List Row} (hrows : Echelon n rows)
    (hlt : ∀ r ∈ rows, ∀ c, r.pivot? n = some c → c < col) :
    Echelon n (rows.map (p.eliminate col) ++ [p]) := by
  have hpivot : ∀ r ∈ rows, (p.eliminate col r).pivot? n = r.pivot? n := by
    intro r hr
    obtain ⟨c, hc, -⟩ := hrows.pivot r hr
    rw [hc, hp.pivot?_eliminate (hrows.length r hr) hc (hlt r hr c hc)]
  have hmem : ∀ q ∈ rows.map (p.eliminate col) ++ [p],
      (∃ r ∈ rows, q = p.eliminate col r) ∨ q = p := by
    intro q hq
    rcases List.mem_append.1 hq with hq | hq
    · obtain ⟨r, hr, hrq⟩ := List.mem_map.1 hq
      exact .inl ⟨r, hr, hrq.symm⟩
    · exact .inr (List.mem_singleton.1 hq)
  have hascending : Ascending n (rows.map (p.eliminate col) ++ [p]) := by
    refine List.pairwise_append.2
      ⟨List.pairwise_map.2 ?_, pairwise_singleton _ _, fun q hq q' hq' => ?_⟩
    · refine hrows.ascending.imp_of_mem fun {r r'} hr hr' hlt => ?_
      rwa [hpivot r hr, hpivot r' hr']
    · obtain ⟨r, hr, rfl⟩ := List.mem_map.1 hq
      rw [List.mem_singleton.1 hq', hpivot r hr, hp.pivot?]
      rintro c _ hc ⟨⟩
      exact hlt r hr c hc
  have hone : ∀ q ∈ rows.map (p.eliminate col) ++ [p], ∃ c, q.pivot? n = some c ∧
      q.entry c = 1 := by
    intro q hq
    rcases hmem q hq with ⟨r, hr, rfl⟩ | rfl
    · obtain ⟨c, hc, hone⟩ := hrows.pivot r hr
      refine ⟨c, (hpivot r hr).trans hc, ?_⟩
      rw [hp.entry_eliminate_of_lt (hrows.length r hr) (hlt r hr c hc), hone]
    · exact ⟨col, hp.pivot?, hp.one⟩
  refine ⟨⟨fun q hq => ?_, hone, ?_, fun q hq q' hq' c hc hne => ?_⟩, hascending⟩
  · rcases hmem q hq with ⟨r, hr, rfl⟩ | rfl
    exacts [hp.length_eliminate (hrows.length r hr), hp.length]
  · refine hascending.imp_of_mem fun {q q'} hq _ hlt heq => ?_
    obtain ⟨c, hc, -⟩ := hone q hq
    exact Nat.lt_irrefl c (hlt c c hc (heq ▸ hc))
  · rcases hmem q' hq' with ⟨r', hr', rfl⟩ | rfl
    · rw [hpivot r' hr'] at hc
      have hccol := hlt r' hr' c hc
      rcases hmem q hq with ⟨r, hr, rfl⟩ | rfl
      · rw [hpivot r hr] at hne
        rw [hp.entry_eliminate_of_lt (hrows.length r hr) hccol]
        exact hrows.clear r hr r' hr' c hc hne
      · exact hp.zero c hccol
    · obtain rfl : col = c := Option.some.inj (hp.pivot?.symm.trans hc)
      rcases hmem q hq with ⟨r, hr, rfl⟩ | rfl
      exacts [hp.entry_eliminate_self (hrows.length r hr), absurd hp.pivot? hne]

end

end PivotRow

/-! ## The sweep -/

namespace Sweep

/-- All columns before `col` have been used. -/
structure Swept (n col : Nat) (s : Sweep) : Prop where
  pivotRow : s.pivotRow ≤ s.rows.length
  reduced : Echelon n s.reduced
  pivot_lt : ∀ r ∈ s.reduced, ∀ c, r.pivot? n = some c → c < col
  length_unused : ∀ r ∈ s.unused, r.length = n + 1
  unused : ∀ r ∈ s.unused, ∀ c < col, r.entry c = 0

def Holds (n : Nat) (s : Sweep) (x : Nat → Rat) : Prop := ∀ r ∈ s.reduced ++ s.unused, r.Holds n x

variable {n col : Nat} {s : Sweep}

/-- Exchanging the first row of a part with one of its rows only changes the order of the part. -/
lemma swap_append (used : List Row) {l : List Row} {i : Nat} (hi : i < l.length) :
    ∃ rest, swap (used ++ l) used.length (used.length + i) = used ++ l[i] :: rest ∧
      (l[i] :: rest).Perm l := by
  cases l with
  | nil => simp at hi
  | cons a tail =>
    cases i with
    | zero => exact ⟨tail, by simp [swap], .refl _⟩
    | succ j =>
      have hj : j < tail.length := Nat.lt_of_succ_lt_succ hi
      have hmoved : (tail[j] :: tail.set j a).Perm (tail[j] :: a :: tail.eraseIdx j) :=
        (set_perm_cons_eraseIdx hj a).cons _
      refine ⟨tail.set j a, by simp [swap, hj], hmoved.trans ((List.Perm.swap ..).trans ?_)⟩
      exact (getElem_cons_eraseIdx_perm hj).cons a

/-- Clearing a column leaves the pivot row alone and eliminates the column from all others. -/
lemma mapIdx_clear {p : Row} (hp : PivotRow n col p) {used rest : List Row}
    (hused : ∀ r ∈ used, r.length = n + 1) (hrest : ∀ r ∈ rest, r.length = n + 1) :
    (used ++ p :: rest).mapIdx (fun k q =>
        if k = used.length ∨ q.entry col = 0 then q else p.eliminate col q) =
      used.map (p.eliminate col) ++ p :: rest.map (p.eliminate col) := by
  have hsame : ∀ q : Row, q.length = n + 1 →
      (if q.entry col = 0 then q else p.eliminate col q) = p.eliminate col q := by
    intro q hq
    split
    next hzero =>
      refine ext_getElem ((hp.length_eliminate hq).trans hq.symm).symm fun c _ _ => ?_
      simp [eliminate, minus, hzero]
    next => rfl
  rw [mapIdx_append, mapIdx_cons]
  refine congrArg₂ _ ?_ (congrArg₂ _ (by simp) ?_)
  · refine ext_getElem (by simp) fun i hi _ => ?_
    have hi : i < used.length := by simpa using hi
    simp [hi.ne, hsame _ (hused _ (getElem_mem hi))]
  · refine ext_getElem (by simp) fun i hi _ => ?_
    have hi : i < rest.length := by simpa using hi
    simp [hsame _ (hrest _ (getElem_mem hi))]

section

variable (hs : s.Swept n col) (hcol : col < n)
include hs hcol

/-- Either no row without a pivot has an entry in the column, or one of them, scaled, is the pivot
row that clears the column. -/
lemma column_cases : (s.column col = s ∧ ∀ r ∈ s.unused, r.entry col = 0) ∨
      ∃ p q rest, PivotRow n col p ∧ (q :: rest).Perm s.unused ∧
        (∀ x, p.Holds n x ↔ q.Holds n x) ∧ (s.column col).pivotRow ≤ (s.column col).rows.length ∧
        (s.column col).reduced = s.reduced.map (p.eliminate col) ++ [p] ∧
        (s.column col).unused = rest.map (p.eliminate col) := by
  cases hfind : s.unused.findIdx? fun r => r.entry col != 0 with
  | none =>
    refine .inl ⟨?_, by simpa using hfind⟩
    unfold column
    rw [hfind]
  | some i =>
    obtain ⟨hi, hne, -⟩ := List.findIdx?_eq_some_iff_getElem.1 hfind
    obtain ⟨rest, hswap, hperm⟩ := swap_append s.reduced hi
    generalize s.unused[i] = q at hne hswap hperm
    have hlength : s.reduced.length = s.pivotRow := by simp [Sweep.reduced, hs.pivotRow]
    have hq := hperm.mem_iff.1 mem_cons_self
    have hne : q.entry col ≠ 0 := by simpa using hne
    have hp : PivotRow n col (q.divide (q.entry col)) := by
      refine ⟨hcol, ?_, ?_, fun c hc => ?_⟩
      · simp [divide, hs.length_unused q hq]
      · rw [entry_divide, div_self hne]
      · rw [entry_divide, hs.unused q hq c hc, zero_div]
    have hcolumn : s.column col =
        ⟨s.reduced.map ((q.divide (q.entry col)).eliminate col) ++
          q.divide (q.entry col) :: rest.map ((q.divide (q.entry col)).eliminate col),
          s.pivotRow + 1⟩ := by
      have hrows : s.rows = s.reduced ++ s.unused := (take_append_drop ..).symm
      unfold column
      rw [hfind]
      dsimp only
      rw [← mapIdx_clear hp hs.reduced.length fun r hr =>
        hs.length_unused r (hperm.mem_iff.1 (mem_cons_of_mem _ hr)), hrows, ← hlength, hswap]
      simp
    refine .inr ⟨_, q, rest, hp, hperm, fun x => holds_divide hne, ?_, ?_, ?_⟩
    all_goals
      generalize q.divide (q.entry col) = p at hcolumn
      rw [hcolumn]
    · simp [hlength]
    · change List.take (s.pivotRow + 1) _ = _
      rw [append_cons, take_left' (by simp [hlength])]
    · change List.drop (s.pivotRow + 1) _ = _
      rw [append_cons, drop_left' (by simp [hlength])]

lemma swept_column : (s.column col).Swept n (col + 1) := by
  rcases column_cases hs hcol with ⟨heq, hzero⟩ | ⟨p, q, rest, hp, hperm, -, hle, hreduced, hunused⟩
  · rw [heq]
    refine ⟨hs.pivotRow, hs.reduced, fun r hr c hc => ?_, hs.length_unused, fun r hr c hc => ?_⟩
    · exact Nat.lt_succ_of_lt (hs.pivot_lt r hr c hc)
    · rcases Nat.lt_succ_iff_lt_or_eq.1 hc with hc | rfl
      exacts [hs.unused r hr c hc, hzero r hr]
  · have hrest : ∀ r ∈ rest, r ∈ s.unused := fun r hr => hperm.mem_iff.1 (mem_cons_of_mem _ hr)
    refine ⟨hle, hreduced ▸ hp.echelon_concat hs.reduced hs.pivot_lt, ?_, ?_, ?_⟩
    · rw [hreduced]
      intro r hr c hc
      rcases List.mem_append.1 hr with hr | hr
      · obtain ⟨t, ht, rfl⟩ := List.mem_map.1 hr
        obtain ⟨d, hd, -⟩ := hs.reduced.pivot t ht
        have hlt := hs.pivot_lt t ht d hd
        rw [hp.pivot?_eliminate (hs.reduced.length t ht) hd hlt] at hc
        cases hc
        exact Nat.lt_succ_of_lt hlt
      · rw [List.mem_singleton.1 hr, hp.pivot?] at hc
        cases hc
        exact Nat.lt_succ_self col
    · rw [hunused, List.forall_mem_map]
      exact fun r hr => hp.length_eliminate (hs.length_unused r (hrest r hr))
    · rw [hunused, List.forall_mem_map]
      intro r hr c hc
      have hlen := hs.length_unused r (hrest r hr)
      rcases Nat.lt_succ_iff_lt_or_eq.1 hc with hc | rfl
      · rw [hp.entry_eliminate_of_lt hlen hc, hs.unused r (hrest r hr) c hc]
      · exact hp.entry_eliminate_self hlen

/-- The pivot row holds before and after, and then elimination changes no equation. -/
lemma holds_column (x : Nat → Rat) : (s.column col).Holds n x ↔ s.Holds n x := by
  rcases column_cases hs hcol with ⟨heq, -⟩ | ⟨p, q, rest, hp, hperm, hpq, -, hreduced, hunused⟩
  · rw [heq]
  · have hrest : ∀ r ∈ rest, r.length = n + 1 := fun r hr =>
      hs.length_unused r (hperm.mem_iff.1 (mem_cons_of_mem _ hr))
    have hsplit : (∀ r ∈ s.unused, r.Holds n x) ↔ p.Holds n x ∧ ∀ r ∈ rest, r.Holds n x := by
      rw [hpq]
      simp only [← hperm.mem_iff, List.forall_mem_cons]
    rw [Holds, Holds, hreduced, hunused]
    simp only [forall_mem_append, List.forall_mem_map, forall_mem_singleton, hsplit, and_assoc]
    by_cases hpx : p.Holds n x
    · have hsame : ∀ r : Row, r.length = n + 1 → ((p.eliminate col r).Holds n x ↔ r.Holds n x) :=
        fun r hr => holds_eliminate (hr.trans hp.length.symm) hpx
      exact and_congr (forall₂_congr fun r hr => hsame r (hs.reduced.length r hr))
        (and_congr Iff.rfl (forall₂_congr fun r hr => hsame r (hrest r hr)))
    · simp [hpx]

end

lemma swept_range {rows : List Row} (hrows : ∀ r ∈ rows, r.length = n + 1) (hcol : col ≤ n) :
    ((List.range col).foldl column ⟨rows, 0⟩).Swept n col ∧
      ∀ x, ((List.range col).foldl column ⟨rows, 0⟩).Holds n x ↔ ∀ r ∈ rows, r.Holds n x := by
  induction col with
  | zero =>
    exact ⟨⟨Nat.zero_le _, echelon_nil n, by simp [Sweep.reduced], hrows, by simp⟩,
      fun x => by simp [Holds, Sweep.reduced, Sweep.unused]⟩
  | succ col ih =>
    obtain ⟨hswept, hholds⟩ := ih (Nat.le_of_succ_le hcol)
    rw [range_succ, foldl_concat]
    exact ⟨swept_column hswept hcol, fun x => (holds_column hswept hcol x).trans (hholds x)⟩

end Sweep

section RowReduce

variable {n : Nat} {rows reduced : List Row}

lemma Sweep.Swept.product_unused {s : Sweep} (hs : s.Swept n n) {r : Row} (hr : r ∈ s.unused)
    (x : Nat → Rat) : r.product n x = 0 :=
  product_eq_zero_of fun c hc => .inl (hs.unused r hr c hc)

section

variable (hrows : ∀ r ∈ rows, r.length = n + 1)
include hrows

lemma rowReduce_eq_some (h : rowReduce rows n = some reduced) :
    Echelon n reduced ∧ ∀ x, (∀ r ∈ reduced, r.Holds n x) ↔ ∀ r ∈ rows, r.Holds n x := by
  obtain ⟨hswept, hholds⟩ := Sweep.swept_range hrows (Nat.le_refl n)
  unfold rowReduce at h
  dsimp only at h
  split at h
  next hzero =>
    cases h
    refine ⟨hswept.reduced, fun x => ?_⟩
    rw [← hholds x, Sweep.Holds, forall_mem_append, iff_self_and]
    intro _ r hr
    have hentry : r.entry n = 0 := by simpa using List.all_eq_true.1 hzero r hr
    exact (hswept.product_unused hr x).trans hentry.symm
  next => cases h

/-- An equation without unknowns is left that fails. -/
lemma not_holds_of_rowReduce_eq_none
    (h : rowReduce rows n = none) (x : Nat → Rat) : ¬ ∀ r ∈ rows, r.Holds n x := by
  obtain ⟨hswept, hholds⟩ := Sweep.swept_range hrows (Nat.le_refl n)
  unfold rowReduce at h
  dsimp only at h
  split at h
  next => cases h
  next hne =>
    rw [← hholds x]
    refine fun hx => hne (List.all_eq_true.2 fun r hr => ?_)
    rw [beq_iff_eq, ← hswept.product_unused hr x]
    exact (hx r (mem_append_right _ hr)).symm

lemma rowReduce_spec {x₀ : Nat → Rat} (hx₀ : ∀ r ∈ rows, r.Holds n x₀) :
    ∃ reduced, rowReduce rows n = some reduced ∧ Echelon n reduced ∧
      ∀ x, (∀ r ∈ reduced, r.Holds n x) ↔ ∀ r ∈ rows, r.Holds n x := by
  cases h : rowReduce rows n with
  | none => exact absurd hx₀ (not_holds_of_rowReduce_eq_none hrows h x₀)
  | some reduced => exact ⟨reduced, rfl, rowReduce_eq_some hrows h⟩

end

end RowReduce

/-! ## Residues -/

namespace Reduced

variable {n : Nat} {rows ps : List Row} {p q r : Row} {c f : Nat} {x y : Nat → Rat}

lemma residue_cons (hc : p.pivot? n = some c) :
    residue n (p :: ps) r = residue n ps (p.eliminate c r) := by
  simp [residue, hc]

lemma length_eliminate (hrows : Reduced n rows) (hp : p ∈ rows) (hr : r.length = n + 1) :
    (p.eliminate c r).length = n + 1 :=
  (length_minus (hr.trans (hrows.length p hp).symm) _).trans hr

lemma residue_induct {motive : Row → Prop} (hrows : Reduced n rows) (hps : ∀ p ∈ ps, p ∈ rows)
    (hstep : ∀ p ∈ rows, ∀ c r, r.length = n + 1 → motive r → motive (p.eliminate c r))
    (hr : r.length = n + 1) (h : motive r) :
    (residue n ps r).length = n + 1 ∧ motive (residue n ps r) := by
  induction ps generalizing r with
  | nil => exact ⟨hr, h⟩
  | cons p ps ih =>
    have hp := hps p (mem_cons_self ..)
    obtain ⟨c, hc, -⟩ := hrows.pivot p hp
    rw [residue_cons hc]
    exact ih (fun q hq => hps q (mem_cons_of_mem _ hq)) (hrows.length_eliminate hp hr)
      (hstep p hp c r hr h)

section

variable (hrows : Reduced n rows)
include hrows

lemma length_residue (hr : r.length = n + 1) : (residue n rows r).length = n + 1 :=
  (hrows.residue_induct (motive := fun _ => True) (fun _ h => h) (fun _ _ _ _ _ _ => trivial) hr
    trivial).1

lemma holds_residue (hx : ∀ p ∈ rows, p.Holds n x)
    (hr : r.length = n + 1) : (residue n rows r).Holds n x ↔ r.Holds n x := by
  refine (hrows.residue_induct (motive := fun s => s.Holds n x ↔ r.Holds n x) (fun _ h => h)
    (fun p hp c s hs hsr => ?_) hr Iff.rfl).2
  rw [holds_eliminate (hs.trans (hrows.length p hp).symm) (hx p hp), hsr]

lemma product_residue (hy : ∀ p ∈ rows, p.product n y = 0)
    (hr : r.length = n + 1) : (residue n rows r).product n y = r.product n y := by
  refine (hrows.residue_induct (motive := fun s => s.product n y = r.product n y) (fun _ h => h)
    (fun p hp c s hs hsr => ?_) hr rfl).2
  rw [eliminate, product_minus (hs.trans (hrows.length p hp).symm), hy p hp, mul_zero,
    sub_zero, hsr]

lemma entry_eliminate (hp : p ∈ rows) (hpc : p.pivot? n = some c)
    (hq : q ∈ rows) {d : Nat} (hqd : q.pivot? n = some d) (hr : r.length = n + 1) :
    (p.eliminate c r).entry d = if d = c then 0 else r.entry d := by
  unfold eliminate
  rw [entry_minus (hr.trans (hrows.length p hp).symm)]
  split
  next heq =>
    obtain ⟨c', hc', hone⟩ := hrows.pivot p hp
    obtain rfl : c' = c := Option.some.inj (hc'.symm.trans hpc)
    rw [heq, hone, mul_one, sub_self]
  next hne =>
    rw [hrows.clear p hp q hq d hqd (by rw [hpc]; simpa using Ne.symm hne), mul_zero, sub_zero]

lemma entry_residue_aux (hps : ∀ p ∈ ps, p ∈ rows) (hq : q ∈ rows)
    (hqc : q.pivot? n = some c) (hr : r.length = n + 1) (h : q ∈ ps ∨ r.entry c = 0) :
    (residue n ps r).entry c = 0 := by
  induction ps generalizing r with
  | nil => exact h.resolve_left (not_mem_nil)
  | cons p ps ih =>
    have hp := hps p (mem_cons_self ..)
    obtain ⟨d, hd, -⟩ := hrows.pivot p hp
    rw [residue_cons hd]
    refine ih (fun q hq => hps q (mem_cons_of_mem _ hq)) (hrows.length_eliminate hp hr) ?_
    rw [hrows.entry_eliminate hp hd hq hqc hr]
    rcases h with h | h
    · rcases List.mem_cons.1 h with rfl | h
      · exact .inr (if_pos (Option.some.inj (hqc.symm.trans hd)))
      · exact .inl h
    · exact .inr (by rw [h, ite_self])

lemma entry_residue (hr : r.length = n + 1) :
    ∀ q ∈ rows, ∀ c, q.pivot? n = some c → (residue n rows r).entry c = 0 :=
  fun _ hq _ hc => hrows.entry_residue_aux (fun _ h => h) hq hc hr (.inl hq)

end

/-! ## Points and directions -/

lemma mem_freeColumns : f ∈ freeColumns n rows ↔ f < n ∧ ∀ r ∈ rows, r.pivot? n ≠ some f := by
  simp [freeColumns]

lemma pivot_or_free (n : Nat) (rows : List Row) (hc : c < n) :
    (∃ r ∈ rows, r.pivot? n = some c) ∨ c ∈ freeColumns n rows := by
  by_cases h : ∃ r ∈ rows, r.pivot? n = some c
  · exact .inl h
  · exact .inr (mem_freeColumns.2 ⟨hc, fun r hr hrc => h ⟨r, hr, hrc⟩⟩)

lemma find?_free (hf : f ∈ freeColumns n rows) :
    (rows.find? fun r => r.pivot? n == some f) = none := by
  simpa [find?_eq_none] using (mem_freeColumns.1 hf).2

lemma entry_map_range (g : Nat → Rat) (hc : c < n) : entry ((List.range n).map g) c = g c := by
  simp [entry, hc]

lemma point_free (hf : f ∈ freeColumns n rows) : entry (point n rows) f = 0 := by
  rw [point, entry_map_range _ (mem_freeColumns.1 hf).1, find?_free hf, elim_none]

lemma kernelVector_self (hf : f ∈ freeColumns n rows) : entry (kernelVector n rows f) f = 1 := by
  rw [kernelVector, entry_map_range _ (mem_freeColumns.1 hf).1, if_pos rfl]

lemma kernelVector_free (hc : c ∈ freeColumns n rows) (hne : c ≠ f) :
    entry (kernelVector n rows f) c = 0 := by
  rw [kernelVector, entry_map_range _ (mem_freeColumns.1 hc).1, if_neg hne, find?_free hc,
    elim_none]

lemma product_kernelVector_of_clear (hf : f ∈ freeColumns n rows)
    (hclear : ∀ q ∈ rows, ∀ c, q.pivot? n = some c → r.entry c = 0) :
    r.product n (entry (kernelVector n rows f)) = r.entry f := by
  rw [product_eq_single (mem_freeColumns.1 hf).1 fun d hd hne => (pivot_or_free n rows hd).imp
    (fun ⟨s, hs, hsd⟩ => hclear s hs d hsd) (kernelVector_free · hne), kernelVector_self hf,
    mul_one]

section

variable (hrows : Reduced n rows)
include hrows

/-- A row is zero in the pivot columns of the other rows. -/
lemma entry_or_free (hr : r ∈ rows) (hc : r.pivot? n = some c) {d : Nat} (hd : d < n)
    (hne : d ≠ c) : r.entry d = 0 ∨ d ∈ freeColumns n rows := by
  refine (pivot_or_free n rows hd).imp_left fun ⟨s, hs, hsd⟩ => hrows.clear r hr s hs d hsd ?_
  rw [hc]
  exact fun h => hne (Option.some.inj h).symm

lemma find?_pivot (hr : r ∈ rows) (hc : r.pivot? n = some c) :
    (rows.find? fun r => r.pivot? n == some c) = some r := by
  obtain ⟨s, hs⟩ : ∃ s, (rows.find? fun r => r.pivot? n == some c) = some s := by
    rw [← isSome_iff_exists, find?_isSome]
    exact ⟨r, hr, by simp [hc]⟩
  have hsc : s.pivot? n = some c := by simpa using find?_some hs
  have hnodup : (rows.map (Row.pivot? n)).Nodup := List.pairwise_map.2 hrows.distinct
  rw [hs, inj_on_of_nodup_map hnodup (mem_of_find?_eq_some hs) hr (hsc.trans hc.symm)]

lemma point_pivot (hr : r ∈ rows) (hc : r.pivot? n = some c) :
    entry (point n rows) c = r.entry n := by
  rw [point, entry_map_range _ (pivot?_eq_some.1 hc).1, hrows.find?_pivot hr hc, elim_some]

lemma kernelVector_pivot (hf : f ∈ freeColumns n rows) (hr : r ∈ rows)
    (hc : r.pivot? n = some c) :
    entry (kernelVector n rows f) c = -r.entry f := by
  have hne : c ≠ f := fun h => (mem_freeColumns.1 hf).2 r hr (h ▸ hc)
  rw [kernelVector, entry_map_range _ (pivot?_eq_some.1 hc).1, if_neg hne,
    hrows.find?_pivot hr hc, elim_some]

/-- The products of the pivot column are the only ones that are left: the point is zero in the free
columns, and the row in the other pivot columns. -/
lemma holds_point : ∀ r ∈ rows, r.Holds n (entry (point n rows)) := by
  intro r hr
  obtain ⟨c, hc, hone⟩ := hrows.pivot r hr
  rw [Row.Holds, product_eq_single (pivot?_eq_some.1 hc).1 fun d hd hne =>
    (hrows.entry_or_free hr hc hd hne).imp_right point_free, hone, one_mul, hrows.point_pivot hr hc]

lemma product_kernelVector (hf : f ∈ freeColumns n rows) :
    ∀ r ∈ rows, r.product n (entry (kernelVector n rows f)) = 0 := by
  intro r hr
  obtain ⟨c, hc, hone⟩ := hrows.pivot r hr
  obtain ⟨hfn, hnot⟩ := mem_freeColumns.1 hf
  have hne : c ≠ f := fun h => hnot r hr (h ▸ hc)
  unfold product
  rw [sum_eq_add c f hne, hone, hrows.kernelVector_pivot hf hr hc, kernelVector_self hf]
  · ring
  · exact fun d hd ⟨hdc, hdf⟩ => mul_eq_zero.2
      ((hrows.entry_or_free hr hc (mem_range.1 hd) hdc).imp_right (kernelVector_free · hdf))
  · exact fun h => absurd (mem_range.2 (pivot?_eq_some.1 hc).1) h
  · exact fun h => absurd (mem_range.2 hfn) h

variable (hr : r.length = n + 1)
include hr

lemma product_eq_zero (hvanish : ∀ f ∈ freeColumns n rows,
      r.product n (entry (kernelVector n rows f)) = 0)
    (hy : ∀ p ∈ rows, p.product n y = 0) : r.product n y = 0 := by
  have hclear := hrows.entry_residue hr
  rw [← hrows.product_residue hy hr]
  refine product_eq_zero_of fun c hc => .inl ?_
  rcases pivot_or_free n rows hc with ⟨q, hq, hqc⟩ | hfree
  · exact hclear q hq c hqc
  · rw [← product_kernelVector_of_clear hfree hclear,
      hrows.product_residue (hrows.product_kernelVector hfree) hr, hvanish c hfree]

/-- A row holds in all solutions exactly if it holds at the point and vanishes on the directions. -/
lemma implied_iff : (∀ x, (∀ p ∈ rows, p.Holds n x) → r.Holds n x) ↔
      r.Holds n (entry (point n rows)) ∧ ∀ f ∈ freeColumns n rows,
        r.product n (entry (kernelVector n rows f)) = 0 := by
  constructor
  · intro h
    have hpoint := h _ hrows.holds_point
    refine ⟨hpoint, fun f hf => ?_⟩
    have hmoved := h (fun c => entry (point n rows) c +
        entry (kernelVector n rows f) c) fun p hp => by
      rw [Row.Holds, product_add, hrows.product_kernelVector hf p hp, add_zero]
      exact hrows.holds_point p hp
    rw [Row.Holds, product_add, hpoint] at hmoved
    simpa using hmoved
  · rintro ⟨hpoint, hvanish⟩ x hx
    have hzero : r.product n (fun c => x c - entry (point n rows) c) = 0 :=
      hrows.product_eq_zero hr hvanish fun p hp => by
        rw [product_sub, hx p hp, hrows.holds_point p hp, sub_self]
    rw [product_sub] at hzero
    exact (sub_eq_zero.1 hzero).trans hpoint

/-- A row that holds in all solutions is zero if it is zero in the pivot columns: the point shows
that its right-hand side is zero, and then each direction that its column is. -/
lemma entry_eq_zero_of_implied (hclear : ∀ q ∈ rows, ∀ c, q.pivot? n = some c → r.entry c = 0)
    (hholds : ∀ x, (∀ p ∈ rows, p.Holds n x) → r.Holds n x) (c : Nat) : r.entry c = 0 := by
  obtain ⟨hpoint, hvanish⟩ := (hrows.implied_iff hr).1 hholds
  rcases Nat.lt_trichotomy c n with hc | rfl | hc
  · rcases pivot_or_free n rows hc with ⟨q, hq, hqc⟩ | hfree
    · exact hclear q hq c hqc
    · exact (product_kernelVector_of_clear hfree hclear).symm.trans (hvanish c hfree)
  · rw [← hpoint]
    exact product_eq_zero_of fun d hd =>
      (pivot_or_free c rows hd).imp (fun ⟨q, hq, hqd⟩ => hclear q hq d hqd) point_free
  · exact entry_eq_zero (by omega)

/-- A row follows from the system exactly if nothing is left of it. -/
lemma isZero_residue_iff :
    (residue n rows r).isZero ↔ ∀ x, (∀ p ∈ rows, p.Holds n x) → r.Holds n x := by
  rw [isZero, List.all_eq_true]
  refine ⟨fun h x hx => ?_, fun hholds q hq => ?_⟩
  · have hzero : ∀ c, (residue n rows r).entry c = 0 := fun c => by
      by_cases hc : c < (residue n rows r).length
      · simpa [entry, hc] using h _ (getElem_mem hc)
      · exact entry_eq_zero (by omega)
    rw [← hrows.holds_residue hx hr, Row.Holds, hzero n]
    exact product_eq_zero_of fun c _ => .inl (hzero c)
  · obtain ⟨c, hc, rfl⟩ := getElem_of_mem hq
    have hentry := hrows.entry_eq_zero_of_implied (hrows.length_residue hr) (hrows.entry_residue hr)
      (fun x hx => (hrows.holds_residue hx hr).2 (hholds x hx)) c
    simpa [entry, hc] using hentry

end

end Reduced

end StaticAnalysis
