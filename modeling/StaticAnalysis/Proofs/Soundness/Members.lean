import StaticAnalysis.Proofs.Numeric.Coverage
import StaticAnalysis.Proofs.Runs.Semantics
import StaticAnalysis.Proofs.Shared.Order

/-!
# States of sequential integer programs

The analysis of a sequential integer program meets *numeric* states only: one thread, and cells that
hold integers.  A numeric state *covers* a moment of a run if it is reachable and lists only cells
of the activation and, unless the function is analysed without its callers, globals, each with a
value that has the integer in it.  Joins, widenings and narrowings keep that up.
-/

namespace StaticAnalysis

open Fault IntVal SortedMap Value

namespace Value

/-- A scalar that is no address. -/
structure Numeric (v : Value) : Prop where
  scalar : v.Scalar
  isAddr : v.isAddr = false

/-- An integer is among those a value describes. -/
def Has : Value → Int → Prop
  | .int i, n => i.contains n = true
  | .top, _ => True
  | _, _ => False

/-- A well-formed integer, any value, or none. -/
def Integral : Value → Prop
  | .int i => i.WellFormed
  | .bottom => True
  | .top => True
  | _ => False

variable {v w u : Value} {n : Int}

lemma numeric_int {i : IntVal} (h : i.Tight) : (int i).Numeric := ⟨h, rfl⟩

lemma numeric_top : top.Numeric := ⟨trivial, rfl⟩

lemma numeric_bottom : bottom.Numeric := ⟨trivial, rfl⟩

lemma Integral.cases (h : v.Integral) : v = .bottom ∨ v = .top ∨ ∃ i, v = .int i ∧
    i.WellFormed := by
  cases v with
  | bottom => exact .inl rfl
  | top => exact .inr (.inl rfl)
  | int i => exact .inr (.inr ⟨i, rfl, h⟩)
  | addr | array => exact absurd h id

lemma Numeric.integral (h : v.Numeric) : v.Integral := by
  cases v with
  | int i => exact IntVal.Tight.wellFormed h.scalar
  | addr => cases h.isAddr
  | array => exact h.scalar
  | _ => trivial

lemma Numeric.cases (h : v.Numeric) : v = .bottom ∨ v = .top ∨ ∃ i, v = .int i ∧ i.Tight := by
  rcases h.integral.cases with rfl | rfl | ⟨i, rfl, -⟩
  exacts [.inl rfl, .inr (.inl rfl), .inr (.inr ⟨i, rfl, h.scalar⟩)]

lemma Integral.isAddr (h : v.Integral) : v.isAddr = false := by
  rcases h.cases with rfl | rfl | ⟨i, rfl, -⟩ <;> rfl

lemma Integral.toInt (h : v.Integral) : v.toInt.WellFormed := by
  rcases h.cases with rfl | rfl | ⟨i, rfl, hi⟩
  exacts [tight_bottom.wellFormed, tight_top.wellFormed, hi]

lemma Numeric.pointees? (h : v.Numeric) : v.pointees? = .ok (some []) := by
  rcases h.cases with rfl | rfl | ⟨i, rfl, -⟩ <;> rfl

lemma isVoid_of_has (h : v.Has n) : v.isVoid = false := by
  cases v with
  | int i => exact isBottom_of_contains h
  | top => rfl
  | _ => exact absurd h id

lemma Void.not_has (h : v.Void) : ¬ v.Has n := by
  intro hn
  cases h with
  | int hi => simp [isBottom_of_contains hn] at hi
  | _ => exact hn

lemma has_toInt (h : v.Has n) : v.toInt.contains n := by
  cases v with
  | int i => exact h
  | top => exact contains_top
  | _ => exact absurd h id

lemma has_of_below (h : v.Below w) (hw : w.isAddr = false) (hv : v.Has n) : w.Has n := by
  cases h with
  | void hvoid => exact absurd hv hvoid.not_has
  | top => trivial
  | int h => exact contains_of_le h hv
  | null => cases hw
  | addr | array => exact absurd hv id

section

variable (hv : v.Integral) (hw : w.Integral) (h : v.join w = .ok u)
include hv hw h

lemma Integral.join_cases : u = .top ∨ v.Void ∧ u = w ∨ w.Void ∧ u = v ∨
      ∃ i j k, v = .int i ∧ w = .int j ∧ u = .int k ∧ i.join j = .ok k := by
  rcases joinWith_cases h with ⟨hvoid, rfl⟩ | ⟨-, hvoid, rfl⟩ | ⟨-, -, h⟩
  · exact .inr (.inl ⟨hvoid, rfl⟩)
  · exact .inr (.inr (.inl ⟨hvoid, rfl⟩))
  · cases joinsTo_of_joinKinds h with
    | top => exact .inl rfl
    | int hk => exact .inr (.inr (.inr ⟨_, _, _, rfl, rfl, rfl, hk⟩))
    | null => exact absurd hw id
    | addr | orNull | array => exact absurd hv id

lemma Integral.has_join (hn : v.Has n ∨ w.Has n) : u.Has n := by
  rcases hv.join_cases hw h with rfl | ⟨hvoid, rfl⟩ | ⟨hvoid, rfl⟩ | ⟨i, j, k, rfl, rfl, rfl, hk⟩
  · trivial
  · exact hn.resolve_left hvoid.not_has
  · exact hn.resolve_right hvoid.not_has
  · exact hn.elim (contains_join_left hv hw · hk) (contains_join_right hv hw · hk)

end

/-- An operation whose results are numeric. -/
def KeepsNumeric (f : Value → Value → Except Fault Value) : Prop :=
  ∀ ⦃v w u : Value⦄, v.Numeric → w.Numeric → f v w = .ok u → u.Numeric

lemma numeric_join : KeepsNumeric join := by
  intro v w u hv hw h
  rcases hv.integral.join_cases hw.integral h with rfl | ⟨-, rfl⟩ | ⟨-, rfl⟩ | ⟨i, j, k, rfl, rfl,
    rfl, hk⟩
  exacts [numeric_top, hw, hv, numeric_int (tight_join hv.scalar hw.scalar hk)]

lemma numeric_widen : KeepsNumeric widen := by
  intro v w u hv hw h
  rcases widenWith_cases h with ⟨-, rfl⟩ | ⟨-, h⟩
  · exact hw
  -- Only the widening of two integers is no join.
  rcases hv.cases with rfl | rfl | ⟨i, rfl, hi⟩
  iterate 2 exact numeric_join hv hw h
  rcases hw.cases with rfl | rfl | ⟨j, rfl, hj⟩
  iterate 2 exact numeric_join hv hw h
  cases h
  exact numeric_int (tight_widen hi hj)

lemma numeric_narrow (hv : v.Numeric) (hw : w.Numeric) (h : v.narrow w = .ok u) :
    u.Numeric ∧ ∀ n, v.Has n → w.Has n → u.Has n := by
  have hscalar := (narrow_spec hv.scalar hw.scalar h).1
  unfold narrow at h
  rw [depth_eq hv.scalar, depth_eq hw.scalar] at h
  rcases hv.cases with rfl | rfl | ⟨i, rfl, hi⟩
  · cases h
    exact ⟨hv, fun n hn _ => hn⟩
  · cases h
    exact ⟨hw, fun n _ hn => hn⟩
  rcases hw.cases with rfl | rfl | ⟨j, rfl, hj⟩
  iterate 2
    cases h
    exact ⟨hv, fun n hn _ => hn⟩
  obtain ⟨k, hk, h⟩ := bind_eq_ok.1 h
  cases h
  exact ⟨⟨hscalar, rfl⟩, fun n hm hn => contains_narrow hi.wellFormed hj.wellFormed hm hn hk⟩

end Value

/-! ## States -/

namespace Moment

/-- What an activation holds under the name of one of its cells: a local, or the value it is to
return. -/
def held (m : Moment) (name : String) : Int :=
  if name = State.retName then m.result else m.locals name

/-- What is in a cell at a moment of a run, if a state may list the cell.  In a function that is
analysed without its callers globals are not listed. -/
def content? (modular : Bool) (m : Moment) (c : Cell) : Option Int :=
  match c with
  | ⟨.localVar function name, []⟩ => if function = m.function then some (m.held name) else none
  | ⟨.globalVar name, []⟩ => if modular then none else some (m.globals name)
  | _ => none

lemma content?_local {modular : Bool} {m : Moment} {name : String} :
    m.content? modular (.ofLocal m.function name) = some (m.held name) := by
  simp [content?, Cell.ofLocal]

lemma content?_global {m : Moment} {name : String} :
    m.content? false (.ofGlobal name) = some (m.globals name) := by
  simp [content?, Cell.ofGlobal]

lemma content?_congr {modular : Bool} {m n : Moment} {c : Cell} (hf : n.function = m.function)
    (hlocal : ∀ name, c = .ofLocal m.function name → n.held name = m.held name)
    (hglobal : ∀ name, c = .ofGlobal name → n.globals name = m.globals name) :
    n.content? modular c = m.content? modular c := by
  unfold content?
  rw [hf]
  split
  next f name =>
    split
    next hf' => rw [hlocal name (by rw [hf']; rfl)]
    next => rfl
  next name => rw [hglobal name rfl]
  next => rfl

lemma content?_cases {modular : Bool} {m : Moment} {c : Cell} {n : Int}
    (h : m.content? modular c = some n) :
    (∃ name, c = .ofLocal m.function name ∧ n = m.held name) ∨
      modular = false ∧ ∃ name, c = .ofGlobal name ∧ n = m.globals name := by
  unfold content? at h
  split at h
  next f name =>
    simp only [Option.ite_none_right_eq_some, Option.some.injEq] at h
    obtain ⟨rfl, rfl⟩ := h
    exact .inl ⟨name, rfl, rfl⟩
  next name =>
    simp only [Option.ite_none_left_eq_some, Option.some.injEq] at h
    exact .inr ⟨by simpa using h.1, name, rfl, h.2.symm⟩
  next => cases h

end Moment

namespace State

/-- A flat state of one thread whose cells hold integers. -/
structure Numeric (s : State) : Prop where
  flat : s.Flat
  single : s.multithreaded = false
  cells : ∀ c v, s.cells.get? c = some v → v.Numeric

/-- What a cell may hold according to a state is what it holds at a moment of a run. -/
def Holds (modular : Bool) (m : Moment) (c : Cell) (v : Value) : Prop :=
  ∃ n, m.content? modular c = some n ∧ v.Has n

/-- A state describes a moment of a run. -/
structure Covers (modular : Bool) (s : State) (m : Moment) : Prop where
  reachable : s.reachable = true
  cells : ∀ c v, s.cells.get? c = some v → Holds modular m c v

variable {modular : Bool} {s t r : State} {m : Moment} {v : Value} {c : Cell}

lemma Holds.mono {w : Value} (h : Holds modular m c v) (hle : v.Below w)
    (hw : w.isAddr = false) : Holds modular m c w :=
  h.imp fun _ ⟨hn, hv⟩ => ⟨hn, has_of_below hle hw hv⟩

lemma numeric_unknown : (unknown .none).Numeric :=
  ⟨flat_unknown, rfl, fun c v h => by simp [unknown] at h⟩

lemma numeric_unreachable : unreachable.Numeric :=
  ⟨flat_unreachable, rfl, fun c v h => by simp [unreachable, unknown] at h⟩

lemma Numeric.get (hs : s.Numeric) (c : Cell) : (s.get c).Numeric :=
  of_getD hs.cells numeric_top

lemma numeric_stop (hs : s.Numeric) : s.stop.Numeric :=
  ⟨⟨hs.flat.cells, hs.flat.copies, hs.flat.kept, hs.flat.relation⟩, hs.single, hs.cells⟩

lemma numeric_set (hs : s.Numeric) (hv : v.Numeric) (h : s.set c v = .ok r) : r.Numeric := by
  have hflat := flat_set hs.flat hv.scalar h
  obtain ⟨cells, rfl, hcells⟩ := set_induct h hv hs.cells
  exact ⟨hflat, hs.single, hcells⟩

lemma Covers.set (hs : s.Covers modular m) (hv : Holds modular m c v) (h : s.set c v = .ok r) :
    r.Covers modular m := by
  obtain ⟨cells, rfl, hcells⟩ := set_induct h hv hs.cells
  exact ⟨hs.reachable, hcells⟩

lemma Covers.le (h : s.Covers modular m) (hs : s.Flat) (ht : t.Numeric) (hle : s.le t = .ok true) :
    t.Covers modular m := by
  obtain ⟨htr, hbelow⟩ := (le_iff hs ht.flat).1 hle h.reachable
  refine ⟨htr, fun c w hw => ?_⟩
  obtain ⟨v, hv, hvw⟩ := hbelow.cells c w hw
  exact (h.cells c v hv).mono hvw (ht.cells c w hw).isAddr

lemma numeric_merge {f : Value → Value → Except Fault Value} (hf : Value.UpperBound f)
    (hf' : Value.KeepsNumeric f) {relations : Relation → Relation → Relation}
    (hrel : relations .none .none = .none) (hs : s.Numeric) (ht : t.Numeric)
    (h : merge f relations s t = .ok r) : r.Numeric := by
  have hflat := (merge_spec hf hrel hs.flat ht.flat h).1
  rcases merge_cases h with ⟨-, rfl⟩ | ⟨-, -, rfl⟩ | ⟨-, -, hm⟩
  · exact ht
  · exact hs
  · refine ⟨hflat, by simp [hm.multithreaded, hs.single, ht.single], fun c u hu => ?_⟩
    obtain ⟨v, w, hv, hw, hvw⟩ := get?_mergeValues hm.cells hu
    exact hf' (hs.cells c v hv) (ht.cells c w hw) hvw

section

variable (hs : s.Numeric) (ht : t.Numeric)
include hs ht

lemma numeric_join (h : s.join t = .ok r) : r.Numeric :=
  numeric_merge Value.upperBound_join Value.numeric_join rfl hs ht h

lemma numeric_widen (h : s.widen t = .ok r) : r.Numeric :=
  numeric_merge Value.upperBound_widen Value.numeric_widen rfl hs ht h

lemma numeric_widen_join (h : (do s.widen (← s.join t)) = Except.ok r) : r.Numeric := by
  obtain ⟨u, hu, h⟩ := bind_eq_ok.1 h
  exact numeric_widen hs (numeric_join hs ht hu) h

/-! ## Narrowing -/

lemma numeric_narrow (h : s.narrow t = .ok r) : r.Numeric := by
  have hflat := (narrow_spec hs.flat ht.flat h).1
  rcases narrow_cases h with rfl | ⟨cells, rfl, hcells⟩
  · exact ht
  refine ⟨hflat, ht.single, fun c u hu => ?_⟩
  rcases hcells c u hu with hu | ⟨v, hv, ⟨-, rfl⟩ | ⟨w, hw, hn⟩⟩
  · exact ht.cells c u hu
  · exact hs.cells c u hv
  · exact (Value.numeric_narrow (hs.cells c v hv) (ht.cells c w hw) hn).1

end

lemma Covers.narrow (hsm : s.Covers modular m) (htm : t.Covers modular m) (hs : s.Numeric)
    (ht : t.Numeric) (h : s.narrow t = .ok r) : r.Covers modular m := by
  rcases narrow_cases h with rfl | ⟨cells, rfl, hcells⟩
  · exact htm
  refine ⟨htm.reachable, fun c u hu => ?_⟩
  rcases hcells c u hu with hu | ⟨v, hv, ⟨-, rfl⟩ | ⟨w, hw, hn⟩⟩
  · exact htm.cells c u hu
  · exact hsm.cells c u hv
  · obtain ⟨n, hc, hvn⟩ := hsm.cells c v hv
    obtain ⟨n', hc', hwn⟩ := htm.cells c w hw
    cases hc.symm.trans hc'
    exact ⟨n, hc, (Value.numeric_narrow (hs.cells c v hv) (ht.cells c w hw) hn).2 n hvn hwn⟩

end State

/-! ## Shared values -/

namespace Summary

/-- Only globals are written, and only integers are written and returned. -/
structure Numeric (s : Summary) : Prop where
  ret : s.ret.Numeric
  writes : ∀ c v, s.writes.get? c = some v → v.Numeric ∧ ∃ name, c = .ofGlobal name

variable {s t r : Summary}

lemma Numeric.flat (h : s.Numeric) : s.Flat :=
  ⟨h.ret.scalar, fun c v hv => (h.writes c v hv).1.scalar⟩

lemma numeric_bottom : bottom.Numeric := ⟨Value.numeric_bottom, fun _ _ h => by simp [bottom] at h⟩

lemma numeric_unknown : unknown.Numeric := ⟨numeric_top, fun _ _ h => by simp [unknown] at h⟩

lemma numeric_ofRead (c : Cell) : (ofRead c).Numeric :=
  ⟨Value.numeric_bottom, numeric_bottom.writes⟩

lemma numeric_ofReturn {v : Value} (h : v.Numeric) : (ofReturn v).Numeric :=
  ⟨h, numeric_bottom.writes⟩

lemma numeric_ofWrite {v : Value} (name : String) (h : v.Numeric) :
    (ofWrite (.ofGlobal name) v).Numeric := by
  refine ⟨Value.numeric_bottom, fun c w hw => ?_⟩
  rw [ofWrite, get?_singleton] at hw
  split at hw
  next hc =>
    cases hw
    exact ⟨h, name, hc⟩
  next => cases hw

lemma numeric_merge {f : Value → Value → Except Fault Value} (hf : Value.KeepsNumeric f)
    (hs : s.Numeric) (ht : t.Numeric) (h : merge f s t = .ok r) : r.Numeric := by
  unfold merge at h
  split at h
  · cases h
    exact numeric_unknown
  obtain ⟨writes, hwrites, h⟩ := bind_eq_ok.1 h
  obtain ⟨ret, hret, h⟩ := bind_eq_ok.1 h
  cases h
  refine ⟨hf hs.ret ht.ret hret, fun c u hu => ?_⟩
  have hc := get?_mergeM hwrites c
  rcases hv : s.writes.get? c with _ | v
  · rw [hv, hu] at hc
    exact ht.writes c u hc.symm
  obtain ⟨hvn, hglobal⟩ := hs.writes c v hv
  rcases hw : t.writes.get? c with _ | w
  all_goals rw [hv, hw, hu] at hc
  · cases hc
    exact ⟨hvn, hglobal⟩
  · obtain ⟨x, hx, ⟨⟩⟩ := hc
    exact ⟨hf hvn (ht.writes c w hw).1 hx, hglobal⟩

end Summary

namespace GlobalValue

/-- What is shared by the functions of a sequential integer program: entry states and summaries. -/
def Numeric : GlobalValue → Prop
  | .bottom => True
  | .state s => s.Numeric
  | .summary s => s.Numeric
  | _ => False

variable {a b c : GlobalValue}

lemma numeric_merge {states : State → State → Except Fault State}
    {values : Value → Value → Except Fault Value}
    {summaries : Summary → Summary → Except Fault Summary}
    (hst : ∀ s t r, s.Numeric → t.Numeric → states s t = .ok r → r.Numeric)
    (hsu : ∀ s t r, s.Numeric → t.Numeric → summaries s t = .ok r → r.Numeric)
    (ha : a.Numeric) (hb : b.Numeric) (h : merge states values summaries a b = .ok c) :
      c.Numeric := by
  unfold merge at h
  split at h
  · cases h
    exact hb
  · cases h
    exact ha
  · obtain ⟨u, hu, rfl⟩ := map_eq_ok.1 h
    exact hst _ _ u ha hb hu
  iterate 4 exact absurd ha id
  · obtain ⟨u, hu, rfl⟩ := map_eq_ok.1 h
    exact hsu _ _ u ha hb hu
  · cases h
    exact ha

lemma numeric_join (ha : a.Numeric) (hb : b.Numeric) (h : a.join b = .ok c) : c.Numeric :=
  numeric_merge (fun _ _ _ => State.numeric_join)
    (fun _ _ _ => Summary.numeric_merge Value.numeric_join) ha hb h

lemma numeric_widen (ha : a.Numeric) (hb : b.Numeric) (h : a.widen b = .ok c) : c.Numeric := by
  refine numeric_merge (fun _ _ _ => State.numeric_widen_join) (fun s t r hs ht h => ?_) ha hb h
  obtain ⟨u, hu, h⟩ := bind_eq_ok.1 h
  exact Summary.numeric_merge Value.numeric_widen hs
    (Summary.numeric_merge Value.numeric_join hs ht hu) h

end GlobalValue
end StaticAnalysis
