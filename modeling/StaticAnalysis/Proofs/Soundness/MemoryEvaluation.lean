import StaticAnalysis.Proofs.Soundness.Evaluation
import StaticAnalysis.Proofs.Transfer.UniqueCells

/-!
# Evaluation in memories with pointers

In a memory that a state depicts, the value of an expression admits what the expression computes,
the places of a designator include what it denotes, and the truth of a condition admits its outcome.

Numbers are dealt with as in programs over integers, by the integer that a value is converted to.
-/

namespace StaticAnalysis

open Datum IntVal Option Value Memory

def Graph.variableCell (g : Graph) (function name : String) : Cell :=
  if g.isLocalIn function name then .ofLocal function name else .ofGlobal name

/-- An activation of a function has its variables in a memory: a variable is the name of one object,
and these are the objects of the activation. -/
structure Memory.Hosts {ω : Type} (m : Memory ω) (g : Graph)
    (function : String) (vars : String → ω) : Prop where
  distinct : m.Distinct
  names : ∀ x, m.cell (vars x) [] = g.variableCell function x

/-- Plain states, as they tell of a memory. -/
def Memory.reading {ω : Type} (m : Memory ω) (vars : String → ω) : Reading (Datum ω) where
  language := .scalar
  states := State.Plain
  values := Value.Scalar
  targets := IntVal.Tight
  describes s := s.Depicts m
  number := .number
  yields e := e.Computes m vars
  outcome c := c.Results m vars
  has := m.Admits
  arith h := h
  neg h := h
  truth h := h
  admissible h := h.admissible
  always h := h
  never h := h
  not h := h
  and_true h := h
  and_false h := h
  or_true h := h
  or_false h := h
  negate := by
    rintro op a b ⟨d, d', hd, hd', hop⟩
    exact ⟨d, d', hd, hd', hop.negate⟩
  swap := by
    rintro op a b ⟨d, d', hd, hd', hop⟩
    exact ⟨d', d, hd', hd, hop.swap⟩
  has_number := admits_number
  has_toInt h := h.contains_toInt
  isBottom_eq h := h.isVoid

namespace State

open Step

variable {ω : Type} {C : Contract} {m : Memory ω} {vars : String → ω} {env : Env} {s : State}
  {v x y : Value} {d d' : Datum ω}

/-- Places are cells, and in a depicted memory they include what is asked for. -/
structure Lists (s : State) (m : Memory ω) (P : ω → List String → Prop)
    (places : Option (List Place)) : Prop where
  cells : Cells places
  mem : s.Depicts m → ∀ o path, P o path → ∀ l, places = some l → .ofCell (m.cell o path) ∈ l

/-! ## Places -/

variable {places : Option (List Place)} {op : ArithOp} {u : Value} {t : Truth} {b : Bool}

lemma lists_loadPlaces (henv : env.Whole) (hs : s.Plain) {P : ω → List String → Prop}
    (h : s.Lists m P places) : (s.loadPlaces env places).Meets C fun v => v.Scalar ∧ (s.Depicts m →
      ∀ o path d, P o path → m.content o path = some d → m.Admits v d) := by
  cases places with
  | none => exact meets_pure ⟨trivial, fun _ _ _ _ _ _ => admits_top⟩
  | some l =>
    refine (meets_foldlM_rest (I := fun rest (v : Value) => v.Scalar ∧ ∀ d,
      (∃ p ∈ l, p ∉ rest ∧ m.Admits (s.get p.cell) d) → m.Admits v d) ?_
      ⟨scalar_bottom, ?_⟩).mono ?_
    · rintro p rest v hp ⟨hv, hadmits⟩
      have hload : s.load env p = pure (s.get p.cell) := by
        have hcell := h.cells l rfl p hp
        simp only [Place.isCell, Bool.and_eq_true, Bool.not_eq_true', isNone_iff_eq_none] at hcell
        simp [load, hcell.1, hcell.2, loadCell_eq henv hs]
      rw [hload, pure_bind]
      have hold := hs.flat.get p.cell
      refine meets_lift fun u hu => ⟨scalar_join hv hold hu, ?_⟩
      rintro d ⟨q, hq, hrest, hd⟩
      refine .join hv hold hu ?_
      by_cases hqp : q = p
      · exact .inr (hqp ▸ hd)
      · refine .inl (hadmits d ⟨q, hq, fun hmem => ?_, hd⟩)
        exact (List.mem_cons.1 hmem).elim hqp hrest
    · rintro d ⟨p, hp, hrest, -⟩
      exact absurd hp hrest
    · rintro u ⟨hu, hadmits⟩
      refine ⟨hu, fun hd o path d hP hcontent => ?_⟩
      refine hadmits d ⟨_, h.mem hd o path hP l rfl, ?_, ?_⟩
      · exact List.not_mem_nil
      · exact hd.cells o path d hcontent

lemma Lists.addressOf {P : ω → List String → Prop} (h : s.Lists m P places) (hd : s.Depicts m) {o : ω}
    {path : List String} (hP : P o path) : m.Admits (addressOf places) (.pointer o path) := by
  cases places with
  | none => exact admits_any
  | some l =>
    have hall : l.all Place.isCell = true := List.all_eq_true.2 (h.cells l rfl)
    simp only [State.addressOf, hall, if_true]
    refine Memory.admits_targets.2 (.inr ⟨o, path, rfl, SortedSet.mem_ofList.2 ?_⟩)
    exact List.mem_map.2 ⟨_, h.mem hd o path hP l rfl, rfl⟩

/-! ## Operations -/

lemma arithmetic_toInt (h : arithmetic op x y = .ok u) :
    u = .top ∨ arithmetic op (.int x.toInt) (.int y.toInt) = .ok u := by
  cases op with
  | add =>
    unfold arithmetic at h
    dsimp only at h
    split at h
    · cases h
      exact .inl rfl
    · exact .inr h
  | _ => exact .inr h

lemma admits_arithmetic {i j n : Int} (hx : x.Scalar) (hy : y.Scalar) (hi : m.Admits x (.number i))
    (hj : m.Admits y (.number j)) (hi' : Word.Admissible i) (hj' : Word.Admissible j)
    (hn : op.result? i j = some n) (hn' : Word.Admissible n) (h : arithmetic op x y = .ok u) :
    m.Admits u (.number n) := by
  rcases arithmetic_toInt h with rfl | h
  · exact admits_top
  · obtain ⟨r, rfl, -, hmem⟩ := arithmetic_spec (x := .int _) (y := .int _)
      (tight_toInt hx).wellFormed (tight_toInt hy).wellFormed h
    exact Memory.admits_number.2 (hmem i j n hi.contains_toInt hj.contains_toInt hi' hj' hn hn')

lemma admits_equalTruth (hm : m.Distinct) (hx : x.Scalar) (hy : y.Scalar) (hd : m.Admits x d)
    (hd' : m.Admits y d') (h : equalTruth x y = .ok t) (hb : b ↔ d = d') : t.Admits b := by
  unfold equalTruth at h
  split at h
  · have hpointers := hm.eqTruth hd.toAddr hd'.toAddr
    cases h
    cases ht : x.toAddr.eqTruth y.toAddr with
    | unknown => exact Truth.admits_unknown b
    | true => exact hb.2 (hpointers.1 ht) ▸ .inr rfl
    | false =>
      have : b = false := by simpa [hpointers.2 ht] using hb
      exact this ▸ .inr rfl
  · have hints : ∀ i j, d.Allows i → d'.Allows j → t.Admits (i == j) := fun i j hi hj =>
      admits_eqTruth (tight_toInt hx).wellFormed (tight_toInt hy).wellFormed
        (Memory.admits_int.1 hd.toInt i hi) (Memory.admits_int.1 hd'.toInt j hj) h
    obtain ⟨i, hi⟩ := d.exists_allows
    cases b with
    | true =>
      obtain rfl := hb.1 rfl
      simpa using hints i i hi hi
    | false =>
      have hne : d ≠ d' := by simpa using hb
      by_cases hd' : d' = .number i
      · obtain ⟨k, hk, hki⟩ := exists_allows_ne (hd' ▸ hne)
        exact beq_eq_false_iff_ne.2 hki ▸ hints k i hk (hd' ▸ allows_number)
      · obtain ⟨k, hk, hki⟩ := exists_allows_ne hd'
        exact beq_eq_false_iff_ne.2 hki.symm ▸ hints i k hi hk

lemma admits_compare (hm : m.Distinct) (hx : x.Scalar) (hy : y.Scalar) (hd : m.Admits x d)
    (hd' : m.Admits y d') {op : CmpOp} (h : compareTruth op x y = .ok t) (hb : op.Compares d d' b) :
    t.Admits b := by
  cases op with
  | eq => exact admits_equalTruth hm hx hy hd hd' h hb
  | ne =>
    obtain ⟨u, hu, h⟩ := Fault.bind_eq_ok.1 h
    cases h
    simpa using Truth.admits_not (admits_equalTruth hm hx hy hd hd' hu hb.negate)
  | _ =>
    cases d <;> cases d' <;> try exact absurd hb id
    cases hb
    cases h
    first
      | exact admits_ltTruth hd.contains_toInt hd'.contains_toInt
      | exact admits_leTruth hd.contains_toInt hd'.contains_toInt
      | exact admits_ltTruth hd'.contains_toInt hd.contains_toInt
      | exact admits_leTruth hd'.contains_toInt hd.contains_toInt

/-! ## Expressions and conditions -/

lemma evaluates_memory (henv : env.Whole) (hm : m.Hosts env.graph env.function vars) :
    (m.reading vars).Evaluates C env fun s lv => s.Lists m (lv.Denotes m vars) where
  int h := h
  const h := by
    refine ⟨tight_constant h, ?_⟩
    rintro - d ⟨rfl, -⟩
    exact Memory.admits_number.2 (contains_constant.2 rfl)
  null _ := ⟨trivial, fun _ _ hd => Memory.admits_targets.2 (.inl ⟨hd,
    SortedSet.mem_singleton.2 rfl⟩)⟩
  unknown := ⟨tight_top, fun _ _ _ => admits_full fun _ => contains_top⟩
  unsupported _ := ⟨trivial, fun _ _ h => absurd h id⟩
  var _ := by
    refine ⟨cells_ofCell (some [_]), ?_⟩
    rintro - o path ⟨rfl, rfl⟩ l hl
    cases hl
    rw [hm.names]
    exact List.mem_cons_self
  field _ h := by
    refine ⟨cells_map h.cells fun p => Place.isCell_field, ?_⟩
    rintro hd o path ⟨outer, hbase, rfl⟩ l hl
    obtain ⟨l', rfl, rfl⟩ := map_eq_some_iff.1 hl
    exact List.mem_map.2 ⟨_, h.mem hd o outer hbase l' rfl, rfl⟩
  index h := by cases h
  deref _ hv := by
    refine ⟨cells_ofCell _, fun hd o path hP l hl => ?_⟩
    obtain ⟨cells, hcells, rfl⟩ := map_eq_some_iff.1 hl
    exact List.mem_map_of_mem ((hv.has hd _ hP).mem_cells? hcells)
  load hs _ h := by
    refine (lists_loadPlaces henv hs h).mono ?_
    rintro v ⟨hv, hadmits⟩
    refine ⟨hv, ?_⟩
    rintro hd d ⟨⟨o, path, hP, hcontent⟩, -⟩
    exact hadmits hd o path d hP hcontent
  addrOf _ h := by
    refine ⟨scalar_addressOf _, ?_⟩
    rintro hd d ⟨o, path, hP, rfl⟩
    exact h.addressOf hd hP
  arithmetic hx hy h := by
    refine ⟨scalar_arithmetic hx.mem hy.mem h, ?_⟩
    rintro hd d ⟨i, j, n, hi, hj, hn, rfl, hfits⟩
    exact admits_arithmetic hx.mem hy.mem (hx.has hd _ hi)
      (hy.has hd _ hj) hi.admissible hj.admissible hn hfits h
  settle {s e P v u} hs hv h := by
    cases v with
    | int i =>
      obtain ⟨r, hr, h⟩ := Fault.bind_eq_ok.1 h
      rw [hs.flat.relation] at h
      cases h
      refine ⟨tight_restrict hv.mem.wellFormed hr, fun hd d hP => ?_⟩
      exact (hv.has hd d hP).restrict hv.mem hr
    | _ =>
      cases h
      exact hv
  compare hs hx hy ht hu := by
    cases (relationTruth_eq hs.flat.relation).symm.trans hu
    rintro hd b ⟨d, d', hda, hdb, hop⟩
    exact admits_compare hm.distinct hx.mem hy.mem (hx.has hd d hda) (hy.has hd d' hdb) ht hop

end State
end StaticAnalysis
