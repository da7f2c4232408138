import StaticAnalysis.Proofs.Program.Scalar
import StaticAnalysis.Proofs.Transfer.Invariance

/-!
# Transfer functions keep states flat

In a scalar program analysed without relations, every transfer function maps flat states to flat
states and contributes only values that fit their keys: flatness survives stores, and evaluation
gives scalar values.
-/

namespace StaticAnalysis

open Fault IntVal Option SortedMap IntVal.Tight Value Reading

/-- The surroundings of an edge of a function in a context. -/
def Env.onEdge (g : Graph) (settings : Settings)
    (function : String) (context : Context) (id : Nat) : Env where
  graph := g
  settings := settings
  function := function
  thread := context.thread
  edge := id
  modular := context.isModular

/-- A transition of a scalar program that is analysed without relations. -/
structure Env.Scalar (env : Env) : Prop where
  relation : env.settings.relation = .none
  graph : env.graph.Scalar

/-- Constants are words and nothing is indexed. -/
def Language.scalar : Language where
  exprs e := e.isScalar = true
  conds c := c.isScalar = true
  arith h := by simpa [Expr.isScalar] using h
  neg h := h
  truth h := h
  addrOf h := h
  field h := h
  index h := by cases h
  deref h := h
  not h := h
  and h := by simpa [Cond.isScalar] using h
  or h := by simpa [Cond.isScalar] using h
  cmp := by simp [Cond.isScalar]

namespace Value

variable {v w u : Value}

lemma tight_toInt (h : v.Scalar) : v.toInt.Tight := by
  cases v with
  | int a => exact h
  | bottom => exact tight_bottom
  | array a => exact absurd h id
  | top => exact tight_top
  | addr a =>
    cases a with
    | any => exact tight_top
    | of targets =>
      simp only [toInt]
      split_ifs
      exacts [tight_bottom, tight_constant (by decide), tight_top]

lemma havoc_havoc (v : Value) : v.havoc.havoc = v.havoc := by cases v <;> rfl

lemma scalar_havoc (h : v.Scalar) : v.havoc.Scalar := by
  cases v with
  | array a => exact absurd h id
  | _ => trivial

lemma scalar_join (hv : v.Scalar) (hw : w.Scalar) (h : v.join w = .ok u) : u.Scalar :=
  (upperBound_join hv hw h).1

end Value

lemma Place.isCell_field {p : Place} {f : String} (h : p.isCell) : (p.field f).isCell := by
  simp [Place.field, h]
  rfl

namespace State

open Step

variable {env : Env} {s : State} {v : Value} {c : Cell}

variable {key : SharedKey} {x y : IntVal} {mutex : String} {u : Value} {t : Summary} {r : State}
  {places : Option (List Place)} {op : CmpOp} {e a b : Expr} {lv : LValue}

lemma flat_value : (Shared.value key).KeepsFlat Value.Scalar := by
  refine meets_lookup.bind fun x hx => ?_
  split
  exacts [meets_pure hx.flat, meets_pure trivial]

lemma flat_parts : (Shared.parts mutex c).KeepsFlat ScalarMap := by
  refine meets_lookup.bind fun x hx => ?_
  split
  · exact meets_pure hx.flat
  · exact meets_pure fun k v h => by simp at h

/-! ## Stores -/

lemma tracked_eq_false (henv : env.Scalar) (name : String) : s.tracked env name = false := by
  simp [tracked, henv.relation]

lemma syncRelation_eq (henv : env.Scalar) : s.syncRelation env c = .ok s := by
  unfold syncRelation
  split
  · rw [tracked_eq_false henv]
    simp
  · rfl

lemma trackedVar?_eq_none (henv : env.Scalar) (lv : LValue) : s.trackedVar? env lv = none := by
  cases lv with
  | var v => simp [trackedVar?, tracked_eq_false henv]
  | _ => rfl

lemma assign_eq (htype : ∀ name, env.lvalueType? lv ≠ some (.struct name)) (s : State) (e : Expr) :
    s.assign env lv e = s.assignScalar env lv e := by
  unfold assign assignWithin
  split
  next htype' => exact absurd htype' (htype _)
  next => rfl

lemma Flat.escape_eq (hs : s.Flat) (function : String) (cells : Option (List Cell)) :
    ∃ escaped, s.escape function cells = { s with escaped } := by
  unfold escape
  refine List.foldlRecOn (motive := fun r : State => ∃ escaped, r = { s with escaped }) _ _
    ⟨s.escaped, rfl⟩ ?_
  rintro _ ⟨escaped, rfl⟩ c -
  extract_lets s'
  have hs' : s' = { s with escaped } := by
    dsimp only [s']
    split
    · split
      · simp [hs.relation, Relation.forget]
      · rfl
    · rfl
  rw [hs']
  split
  exacts [⟨_, rfl⟩, ⟨_, rfl⟩]

lemma flat_escape (hs : s.Flat) (function : String) (cells : Option (List Cell)) :
    (s.escape function cells).Flat := by
  obtain ⟨escaped, h⟩ := hs.escape_eq function cells
  rw [h]
  exact ⟨hs.cells, hs.copies, hs.kept, hs.relation⟩

lemma flat_stop (hs : s.Flat) : s.stop.Flat := ⟨hs.cells, hs.copies, hs.kept, hs.relation⟩

lemma flat_join {t : State} (hs : s.Flat) (ht : t.Flat) (h : s.join t = .ok r) : r.Flat :=
  (upperBound_join hs ht h).1

lemma scalar_meetTarget {x target : Value} {o : Option Value} (hx : x.Scalar)
    (ht : target.Scalar) (h : meetTarget env x target = .ok o) : ∀ u, o = some u → u.Scalar := by
  rintro u rfl
  unfold meetTarget at h
  split at h
  · obtain ⟨m, hm, h⟩ := bind_eq_ok.1 h
    obtain ⟨r, hr, h⟩ := bind_eq_ok.1 h
    cases h
    have hmeet := tight_meet (wellFormed hx) (wellFormed ht) hm
    exact tight_restrict hmeet.wellFormed hr
  · obtain ⟨r, hr, h⟩ := bind_eq_ok.1 h
    cases h
    exact tight_restrict (wellFormed ht) hr
  · cases h
    trivial
  · cases h
    trivial
  · cases h

lemma upkeep_flat (henv : env.Scalar) : Upkeep .flat env Value.Scalar Flat where
  top := trivial
  bottom := trivial
  addr _ := trivial
  havoc := scalar_havoc
  join := scalar_join
  meet := scalar_meet
  meetTarget := scalar_meetTarget
  value := flat_value
  writeLocks := meets_lookup.bind fun x _ => by split <;> exact meets_pure trivial
  parts := flat_parts
  offers {_ x} hx hkind := by
    cases x with
    | summary t => exact ⟨⟨hx.1, hx.2⟩, hkind⟩
    | state _ => cases hx
    | _ => exact ⟨hx, hkind⟩
  cells hs := hs.cells
  copies hs := hs.copies
  kept hs := hs.kept
  amend hs hst := ⟨fun c v hv => (hst.cells c v hv).elim (hs.cells c v) id,
    fun c p hp => (hst.copies c p hp).elim (hs.copies c p) id,
    fun k v hv => (hst.kept k v hv).elim (hs.kept k v) id, hst.relation.trans hs.relation⟩
  merge := flat_join
  escape hs := flat_escape hs _ _
  tracked _ htracked := by
    rw [tracked_eq_false henv] at htracked
    cases htracked
  unconstrained hs := by
    rw [henv.relation]
    exact ⟨hs.cells, hs.copies, hs.kept, rfl⟩

/-! ## Evaluation -/

lemma fits_summary {function : String} (h : t.Flat) :
    (GlobalKey.summary function).Fits (.summary t) :=
  ⟨h, by simp [GlobalValue.kind?, GlobalKey.kind]⟩

section

variable (henv : env.Scalar)
include henv

lemma flat_load (hs : s.Flat) {p : Place} (hp : p.isCell) :
    (s.load env p).KeepsFlat Value.Scalar := by
  simp only [Place.isCell, Bool.and_eq_true, Bool.not_eq_true', isNone_iff_eq_none] at hp
  unfold load
  rw [hp.1, hp.2]
  exact ((upkeep_flat henv).loadCell hs).bind fun v hv => meets_pure hv

lemma flat_loadPlaces (hs : s.Flat) (h : Cells places) :
    (s.loadPlaces env places).KeepsFlat Value.Scalar := by
  cases places with
  | none => exact meets_pure trivial
  | some l =>
    refine meets_foldlM (fun v p hp hv => ?_) scalar_bottom
    refine (flat_load henv hs (h l rfl p hp)).bind fun w hw => meets_lift fun u hu => ?_
    exact scalar_join hv hw hu

end

lemma scalar_addressOf (places : Option (List Place)) : (addressOf places).Scalar := by
  unfold addressOf
  split
  · split <;> trivial
  · trivial

lemma scalar_arithmetic {op : ArithOp} {x y : Value} (hx : x.Scalar) (hy : y.Scalar)
    (h : arithmetic op x y = .ok u) : u.Scalar := by
  cases op with
  | add =>
    simp only [arithmetic] at h
    split at h
    · cases h
      trivial
    · obtain ⟨r, hr, h⟩ := bind_eq_ok.1 h
      cases h
      exact tight_add hr
  | sub =>
    obtain ⟨r, hr, h⟩ := bind_eq_ok.1 h
    cases h
    exact tight_sub hr
  | mul =>
    obtain ⟨r, hr, h⟩ := bind_eq_ok.1 h
    cases h
    exact tight_mul hr
  | div =>
    obtain ⟨r, hr, h⟩ := bind_eq_ok.1 h
    cases h
    exact tight_div hr
  | mod =>
    obtain ⟨r, hr, h⟩ := bind_eq_ok.1 h
    cases h
    exact tight_rem (tight_toInt hx).wellFormed (tight_toInt hy).wellFormed hr

lemma scalar_settle (hs : s.Flat) (hv : v.Scalar) (h : s.settle env e v = .ok u) : u.Scalar := by
  cases v with
  | int i =>
    obtain ⟨r, hr, h⟩ := bind_eq_ok.1 h
    rw [hs.relation] at h
    cases h
    exact tight_restrict (wellFormed hv) hr
  | array a => exact absurd hv id
  | _ => cases h; trivial

lemma cells_map {f : Place → Place} (h : Cells places)
    (hf : ∀ p, p.isCell → (f p).isCell) : Cells (places.map (·.map f)) := by
  intro l hl p hp
  obtain ⟨l', hl', rfl⟩ := map_eq_some_iff.1 hl
  obtain ⟨q, hq, rfl⟩ := List.mem_map.1 hp
  exact hf q (h l' hl' q hq)

lemma cells_ofCell (cells : Option (List Cell)) : Cells (cells.map (·.map .ofCell)) := by
  intro l hl p hp
  obtain ⟨l', -, rfl⟩ := map_eq_some_iff.1 hl
  obtain ⟨c, -, rfl⟩ := List.mem_map.1 hp
  rfl

/-- Scalar expressions and conditions, in flat states. -/
def flatReading : Reading Int := .silent .scalar Flat Value.Scalar IntVal.Tight

lemma evaluates_flat (henv : env.Scalar) : flatReading.Evaluates .flat env fun _ _ => Cells where
  int h := h
  const h := ⟨scalar_ofInt h, False.elim⟩
  null _ := ⟨trivial, False.elim⟩
  unknown := ⟨tight_top, False.elim⟩
  unsupported _ := ⟨trivial, False.elim⟩
  var _ := cells_ofCell (some [_])
  field _ h := cells_map h fun _ => Place.isCell_field
  index h := by cases h
  deref _ _ := cells_ofCell _
  load hs _ hp := (flat_loadPlaces henv hs hp).mono fun _ hv => ⟨hv, False.elim⟩
  addrOf _ _ := ⟨scalar_addressOf _, False.elim⟩
  arithmetic hx hy h := ⟨scalar_arithmetic hx.mem hy.mem h, False.elim⟩
  settle hs hv h := ⟨scalar_settle hs hv.mem h, False.elim⟩
  compare _ _ _ _ _ := False.elim

/-! ## Conditions as constraints -/

lemma comparisonTargets_cases (hx : x.WellFormed) (hy : y.WellFormed) {r : IntVal × IntVal}
    (h : comparisonTargets op x y = .ok r) : (r.1 = x ∨ r.1.Tight) ∧ (r.2 = y ∨ r.2.Tight) := by
  cases op <;> obtain ⟨p, hp, h⟩ := bind_eq_ok.1 h <;>
    obtain ⟨q, hq, h⟩ := bind_eq_ok.1 h <;> cases h
  case eq => exact ⟨.inr (tight_meet hx hy hp), .inr (tight_meet hy hx hq)⟩
  case ne => exact ⟨restrictNe_cases hx hp, restrictNe_cases hy hq⟩
  case lt => exact ⟨.inr (tight_restrictLt hx hp), .inr (tight_restrictGt hy hq)⟩
  case le => exact ⟨.inr (tight_restrictLe hx hy hp), .inr (tight_restrictGe hy hx hq)⟩
  case gt => exact ⟨.inr (tight_restrictGt hx hp), .inr (tight_restrictLt hy hq)⟩
  case ge => exact ⟨.inr (tight_restrictGe hx hy hp), .inr (tight_restrictLe hy hx hq)⟩

lemma tight_comparisonTargets (hx : x.Tight) (hy : y.Tight) {r : IntVal × IntVal}
    (h : comparisonTargets op x y = .ok r) : r.1.Tight ∧ r.2.Tight := by
  obtain ⟨hp, hq⟩ := comparisonTargets_cases hx.wellFormed hy.wellFormed h
  exact ⟨hp.elim (fun h => h ▸ hx) id, hq.elim (fun h => h ▸ hy) id⟩

lemma guardRelation_eq (hs : s.Flat) : s.guardRelation env op a b = .ok s := by
  simp [guardRelation, hs.relation, Relation.isEnabled]

lemma tight_dividends {r m : Int} (hr : Word.fits r) (h : dividends r m = .ok x) : x.Tight := by
  refine tight_of_reduced ?_ ?_ h
  · split_ifs
    exacts [Interval.proper_atLeast hr, Interval.proper_atMost hr, Interval.proper_top]
  · exact Congruence.canonical_remPreimage r m

lemma invariance_flat (henv : env.Scalar) : Invariance .scalar .flat env Value.Scalar Flat where
  toUpkeep := upkeep_flat henv
  field := id
  unknown := rfl
  int := id
  restrict hi h := tight_restrict (wellFormed hi) h
  dividends hi hbottom hn := tight_dividends ((wellFormed hi).fits_constant? hbottom hn)
  comparison hx hy h := tight_comparisonTargets (tight_toInt hx) (tight_toInt hy) h
  guardRelation hs h := by
    rw [guardRelation_eq hs] at h
    cases h
    exact hs
  eval hs e he := (gives_eval (evaluates_flat henv) hs e he).mono fun _ hv => hv.mem
  evalCond hs c hc := (judges_evalCond (evaluates_flat henv) hs c hc).mono fun _ _ => trivial
  resolve hs lv hlv := (locates_resolve (evaluates_flat henv) hs lv hlv).mono fun _ => .inl
  readLValue hs lv hlv := (locates_resolve (evaluates_flat henv) hs lv hlv).bind
    fun _ hp => flat_loadPlaces henv hs hp

end State
end StaticAnalysis
