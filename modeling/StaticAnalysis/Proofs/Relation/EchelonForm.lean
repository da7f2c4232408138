import StaticAnalysis.Proofs.Relation.RowReduction

/-!
# Reduced row echelon form

Row reduction finds out whether a system has a solution and brings it into reduced row echelon form.
There is only one such form for each set of solutions (`Echelon.eq_of_solutions`): the first entry
of a row that holds in all solutions stands in a pivot column, so that two forms have the same
pivots, and their rows agree because a row without entries in the pivot columns that holds in all
solutions is zero.  Systems can therefore be compared by comparing matrices.
-/

namespace StaticAnalysis

open List Row

/-- The values of the unknowns that satisfy all equations of a system in `n` unknowns. -/
def solutions (n : Nat) (rows : List Row) : Set (Nat → Rat) := {x | ∀ r ∈ rows, r.Holds n x}

variable {n : Nat} {rows rows' reduced : List Row}

lemma Row.ext_entry {r s : Row} (hlen : r.length = s.length) (h : ∀ c, r.entry c = s.entry c) :
    r = s := by
  refine ext_getElem hlen fun c hr hs => ?_
  simpa [entry, hr, hs] using h c

lemma solutions_of_rowReduce (hrows : ∀ r ∈ rows, r.length = n + 1)
    (h : rowReduce rows n = some reduced) : solutions n reduced = solutions n rows :=
  Set.ext (rowReduce_eq_some hrows h).2

lemma rowReduce_eq_none_iff (hrows : ∀ r ∈ rows, r.length = n + 1) :
    rowReduce rows n = none ↔ solutions n rows = ∅ := by
  constructor
  · intro h
    exact Set.eq_empty_of_forall_notMem fun x => not_holds_of_rowReduce_eq_none hrows h x
  · intro hempty
    cases h : rowReduce rows n with
    | none => rfl
    | some reduced =>
      have hpoint : Row.entry (Affine.point n reduced) ∈ solutions n reduced :=
        (rowReduce_eq_some hrows h).1.holds_point
      rw [solutions_of_rowReduce hrows h, hempty] at hpoint
      exact hpoint.elim

/-! ## Uniqueness -/

namespace Reduced

variable {q r : Row} {c : Nat}

/-- The direction of a free column is zero to the right of the column, so a row that starts there
does not vanish on it. -/
lemma product_kernelVector_of_pivot (hrows : Reduced n rows) (hc : c ∈ Affine.freeColumns n rows)
    (hq : q.pivot? n = some c) :
    q.product n (Row.entry (Affine.kernelVector n rows c)) = q.entry c := by
  obtain ⟨hcn, -, hzero⟩ := pivot?_eq_some.1 hq
  rw [product_eq_single hcn fun d hd hne => ?_, kernelVector_self hc, mul_one]
  refine (Nat.lt_or_gt_of_ne hne).imp (hzero d) fun hgt => ?_
  rcases pivot_or_free n rows hd with ⟨s, hs, hsd⟩ | hfree
  · rw [hrows.kernelVector_pivot hc hs hsd, (pivot?_eq_some.1 hsd).2.2 c hgt, neg_zero]
  · exact kernelVector_free hfree hne

lemma exists_pivot_of_implied (hrows : Reduced n rows) (hlen : q.length = n + 1)
    (hq : q.pivot? n = some c) (himplied : ∀ x ∈ solutions n rows, q.Holds n x) :
    ∃ r ∈ rows, r.pivot? n = some c := by
  obtain ⟨hcn, hne, -⟩ := pivot?_eq_some.1 hq
  rcases pivot_or_free n rows hcn with hpivot | hfree
  · exact hpivot
  · have hvanish := ((hrows.implied_iff hlen).1 himplied).2 c hfree
    rw [hrows.product_kernelVector_of_pivot hfree hq] at hvanish
    exact absurd hvanish hne

/-- The difference of two rows of one pivot is zero in all pivot columns and holds in all
solutions. -/
lemma mem_of_solutions (hrows : Reduced n rows) (hrows' : Reduced n rows')
    (h : solutions n rows = solutions n rows') (hq : q ∈ rows) : q ∈ rows' := by
  obtain ⟨c, hqc, hqone⟩ := hrows.pivot q hq
  have himplied : ∀ x ∈ solutions n rows',
    q.Holds n x := fun x hx => (h.symm ▸ hx : x ∈ solutions n rows) q hq
  obtain ⟨r, hr, hrc⟩ := hrows'.exists_pivot_of_implied (hrows.length q hq) hqc himplied
  have hrone : r.entry c = 1 := by
    obtain ⟨d, hd, hone⟩ := hrows'.pivot r hr
    rwa [Option.some.inj (hd.symm.trans hrc)] at hone
  have hlen : q.length = r.length := (hrows.length q hq).trans (hrows'.length r hr).symm
  have hzero := hrows'.entry_eq_zero_of_implied (r := q.minus 1 r)
    ((length_minus hlen 1).trans (hrows.length q hq)) (fun s hs d hsd => ?_) fun x hx => ?_
  · have heq : q = r := ext_entry hlen fun d => by
      have hd := hzero d
      rw [entry_minus hlen, one_mul] at hd
      exact sub_eq_zero.1 hd
    rwa [heq]
  · rw [entry_minus hlen, one_mul, sub_eq_zero]
    by_cases hdc : d = c
    · rw [hdc, hqone, hrone]
    · have hne : some c ≠ some d := fun h => hdc (Option.some.inj h).symm
      obtain ⟨t, ht, htd⟩ := hrows.exists_pivot_of_implied (hrows'.length s hs) hsd
        fun x hx => (h ▸ hx : x ∈ solutions n rows') s hs
      rw [hrows.clear q hq t ht d htd (by rwa [hqc]), hrows'.clear r hr s hs d hsd (by rwa [hrc])]
  · rw [Row.Holds, product_minus hlen, entry_minus hlen, himplied x hx, hx r hr]

end Reduced

lemma Echelon.eq_of_solutions (hrows : Echelon n rows) (hrows' : Echelon n rows')
    (h : solutions n rows = solutions n rows') : rows = rows' := by
  have hnodup : ∀ {l : List Row}, Echelon n l → l.Nodup := fun hl => hl.distinct.imp
    (mt (congrArg _))
  refine List.Perm.eq_of_pairwise (fun r s hr hs hrs hsr => ?_) hrows.ascending hrows'.ascending
    ((perm_ext_iff_of_nodup (hnodup hrows) (hnodup hrows')).2 fun q => ⟨?_, ?_⟩)
  · obtain ⟨c, hc, -⟩ := hrows.pivot r hr
    obtain ⟨d, hd, -⟩ := hrows'.pivot s hs
    exact absurd (hrs c d hc hd) (Nat.lt_asymm (hsr d c hd hc))
  · exact hrows.mem_of_solutions hrows'.toReduced h
  · exact hrows'.mem_of_solutions hrows.toReduced h.symm

/-- Row reduction fails exactly on the systems without solutions.  What it returns is in reduced row
echelon form and has the same solutions, and two systems in the same unknowns are reduced to the
same matrix exactly if they have the same solutions. -/
theorem rowReduce_canonical (hrows : ∀ r ∈ rows, r.length = n + 1) :
    (rowReduce rows n = none ↔ solutions n rows = ∅) ∧
    (∀ reduced, rowReduce rows n = some reduced →
      Echelon n reduced ∧ solutions n reduced = solutions n rows) ∧
    ∀ rows', (∀ r ∈ rows', r.length = n + 1) →
      (rowReduce rows n = rowReduce rows' n ↔ solutions n rows = solutions n rows') := by
  refine ⟨rowReduce_eq_none_iff hrows, fun reduced h => ⟨(rowReduce_eq_some hrows h).1,
    solutions_of_rowReduce hrows h⟩, fun rows' hrows' => ?_⟩
  cases h : rowReduce rows n with
  | none => rw [(rowReduce_eq_none_iff hrows).1 h, eq_comm, rowReduce_eq_none_iff hrows', eq_comm]
  | some reduced =>
    constructor
    · intro h'
      rw [← solutions_of_rowReduce hrows h, solutions_of_rowReduce hrows' h'.symm]
    · intro hsame
      cases h' : rowReduce rows' n with
      | none =>
        rw [(rowReduce_eq_none_iff hrows').1 h', ← rowReduce_eq_none_iff hrows, h] at hsame
        cases hsame
      | some reduced' =>
        refine congrArg some ((rowReduce_eq_some hrows h).1.eq_of_solutions
          (rowReduce_eq_some hrows' h').1 ?_)
        rw [solutions_of_rowReduce hrows h, solutions_of_rowReduce hrows' h', hsame]

/-- Three equations in three unknowns, of which the first starts in the second column and the last
follows from the others, and two others with the same solutions; with another right-hand side there
is no solution. -/
theorem rowReduce_canonical_dependent :
    Echelon 3 [[1, 0, -1, -2], [0, 1, 2, 3]] ∧
    solutions 3 [[1, 0, -1, -2], [0, 1, 2, 3]] = solutions 3 [[0, 2, 4, 6], [1, 1, 1, 1],
      [1, 3, 5, 7]] ∧
    solutions 3 [[0, 2, 4, 6], [1, 1, 1, 1], [1, 3, 5, 7]] = solutions 3 [[2, 1, 0, -1],
      [1, 2, 3, 4]] ∧
    solutions 3 [[0, 2, 4, 6], [1, 1, 1, 1], [1, 3, 5, 8]] = ∅ := by
  have hlength : ∀ r ∈ ([[0, 2, 4, 6], [1, 1, 1, 1], [1, 3, 5, 7]] : List Row),
      r.length = 3 + 1 := by decide
  obtain ⟨-, hsome, hsame⟩ := rowReduce_canonical hlength
  obtain ⟨hechelon, hreduced⟩ := hsome [[1, 0, -1, -2], [0, 1, 2, 3]] (by decide +kernel)
  exact ⟨hechelon, hreduced, (hsame _ (by decide)).1 (by decide +kernel),
    (rowReduce_canonical (by decide)).1.1 (by decide +kernel)⟩

end StaticAnalysis
