import StaticAnalysis.Proofs.Soundness.Integers
import StaticAnalysis.Proofs.Transfer.Flatness

/-!
# Evaluation in integer states

In a state that describes what is seen, the value of an expression has what the expression yields
there, and the truth of a condition admits its outcome.  All operations stay in a family of states,
described or not, so every statement below has the two halves.

Here is what the recursion of the operations comes down to (`evaluates_integers`).
-/

namespace StaticAnalysis

open Fault IntVal Value

/-- An activation that runs under a contract sees its variables: their cells hold what they do, and
the contract takes the reads that are recorded for unknown callers. -/
structure View.Fits (view : View) (C : Contract) (env : Env) (names : String → Bool) : Prop where
  content_eq : ∀ x, names x = true → State.ofCaller env (env.varCell x) = false →
    view.content? (env.varCell x) = some (view.read x)
  offers : ∀ c, C.offers (.summary env.function) (.summary (.ofRead c))

/-- Expressions and conditions over integer variables with admitted names. -/
def Language.over (names : String → Bool) : Language where
  exprs e := e.isOver names = true
  conds c := c.isOver names = true
  arith h := by simpa [Expr.isOver] using h
  neg h := h
  truth h := h
  addrOf h := by cases h
  field h := by cases h
  index h := by cases h
  deref h := by cases h
  not h := h
  and h := by simpa [Cond.isOver] using h
  or h := by simpa [Cond.isOver] using h
  cmp := by simp [Cond.isOver]

namespace State

open Step

/-- The states of a family, as they tell of a view. -/
def Family.reading (K : Family) (names : String → Bool) (view : View) : Reading Int where
  language := .over names
  states := K.states
  values := K.values
  targets := IntVal.WellFormed
  describes s := s.Describes view
  number := id
  yields e := e.Yields view.read
  outcome c := c.Outcome view.read
  has := Value.Has
  arith := by
    rintro op a b n ⟨i, j, hi, hj, hij, hn⟩
    exact ⟨i, j, n, hi, hj, hij, rfl, hn⟩
  neg h := h
  truth h := h
  admissible h := h.admissible
  always h := h
  never h := h
  not h := h
  and_true h := h
  and_false h := h
  or_true h := h
  or_false h := h
  negate := by
    rintro op a b ⟨i, j, hi, hj, hop⟩
    exact ⟨i, j, hi, hj, (CmpOp.holds_negate op i j).trans (by simp [hop])⟩
  swap := by
    rintro op a b ⟨i, j, hi, hj, hop⟩
    exact ⟨j, i, hj, hi, (CmpOp.holds_swap op i j).trans hop⟩
  has_number := Iff.rfl
  has_toInt := Value.has_toInt
  isBottom_eq := isBottom_of_contains

variable {K : Family} {C : Contract} {env : Env} {names : String → Bool} {view : View} {s : State}
  {v : Value}

variable {x : String} {P : Int → Prop} {u y : Value} {op : CmpOp} {t : Truth}

lemma integral_of_gives (h : (K.reading names view).Gives s P v) : v.Integral :=
  K.values_integral h.mem

/-! ## Variables -/

lemma gives_loadCell (hview : view.Fits C env names) (hs : K.states s) (hx : names x) :
    (s.loadCell env (env.varCell x)).Meets C
      ((K.reading names view).Gives s fun n => n = view.read x) := by
  unfold loadCell
  split
  · refine (meets_contribute (hview.offers _)).bind fun _ _ => ?_
    exact meets_pure ⟨K.top, fun _ _ _ => trivial⟩
  next h =>
    simp only [(K.states_integral hs).single, Bool.false_and, Bool.false_eq_true, if_false]
    refine meets_pure ⟨K.get hs _, ?_⟩
    rintro hdescribes n rfl
    unfold State.get SortedMap.getD
    cases hc : s.cells.get? (env.varCell x) with
    | none => trivial
    | some v =>
      obtain ⟨n, hn, hv⟩ := hdescribes.cells _ v hc
      rw [hview.content_eq x hx (by simpa using h)] at hn
      cases hn
      exact hv

lemma resolve_var : s.resolve env (.var x) = pure (some [.ofCell (env.varCell x)]) := by
  unfold resolve
  rfl

lemma gives_loadVar (hview : view.Fits C env names) (hs : K.states s) (hx : names x) :
    (s.loadPlaces env (some [.ofCell (env.varCell x)])).Meets C
      ((K.reading names view).Gives s fun n => n = view.read x) := by
  have hload : s.loadPlaces env (some [.ofCell (env.varCell x)]) =
      (do liftM (Value.bottom.join (← s.loadCell env (env.varCell x)))) := by
    simp [loadPlaces, load, Place.ofCell]
  rw [hload]
  refine (gives_loadCell hview hs hx).bind fun v hv => meets_lift fun u hu => ?_
  rw [(integral_of_gives hv).bottom_join] at hu
  cases hu
  exact hv

/-! ## Values -/

lemma gives_settle (hs : K.states s) {e : Expr}
    (hv : (K.reading names view).Gives s P v) (h : s.settle env e v = .ok u) :
    (K.reading names view).Gives s P u := by
  rcases (integral_of_gives hv).cases with rfl | rfl | ⟨i, rfl, hi⟩
  · cases h
    exact hv
  · cases h
    exact hv
  · obtain ⟨r, hr, h⟩ := bind_eq_ok.1 h
    rw [(K.states_integral hs).relation] at h
    cases h
    refine ⟨K.int (tight_restrict hi hr), fun hdescribes n hn => ?_⟩
    exact contains_restrict hi (hv.has hdescribes n hn) hr

lemma arithmetic_spec {op : ArithOp} {x : Value} (hx : x.Integral) (hy : y.Integral)
    (h : arithmetic op x y = .ok u) : ∃ r, u = .int r ∧ r.Tight ∧ ∀ a b n, x.Has a → y.Has b →
      Word.Admissible a → Word.Admissible b → op.result? a b = some n → Word.Admissible n →
        r.contains n := by
  cases op with
  | add =>
    simp only [arithmetic, hx.isAddr, hy.isAddr, Bool.or_self, Bool.false_eq_true, if_false] at h
    obtain ⟨r, hr, h⟩ := bind_eq_ok.1 h
    cases h
    refine ⟨r, rfl, tight_add hr, fun a b n ha hb _ _ hn hfits => ?_⟩
    cases hn
    exact contains_add (has_toInt ha) (has_toInt hb) hfits.1 hr
  | sub =>
    obtain ⟨r, hr, h⟩ := bind_eq_ok.1 h
    cases h
    refine ⟨r, rfl, tight_sub hr, fun a b n ha hb _ hb' hn hfits => ?_⟩
    cases hn
    exact contains_sub (has_toInt ha) (has_toInt hb) hb'.2 hfits.1 hr
  | mul =>
    obtain ⟨r, hr, h⟩ := bind_eq_ok.1 h
    cases h
    refine ⟨r, rfl, tight_mul hr, fun a b n ha hb _ _ hn hfits => ?_⟩
    cases hn
    exact contains_mul (has_toInt ha) (has_toInt hb) hfits.1 hr
  | div =>
    obtain ⟨r, hr, h⟩ := bind_eq_ok.1 h
    cases h
    refine ⟨r, rfl, tight_div hr, fun a b n ha hb ha' _ hn hfits => ?_⟩
    simp only [ArithOp.result?, Option.ite_none_left_eq_some, Option.some.injEq] at hn
    obtain ⟨hb0, rfl⟩ := hn
    exact contains_div hx.toInt (has_toInt ha) (has_toInt hb) hb0 ha'.1 hfits.1 hr
  | mod =>
    obtain ⟨r, hr, h⟩ := bind_eq_ok.1 h
    cases h
    refine ⟨r, rfl, tight_rem hx.toInt hy.toInt hr, fun a b n ha hb ha' hb' hn _ => ?_⟩
    simp only [ArithOp.result?, Option.ite_none_left_eq_some, Option.some.injEq] at hn
    obtain ⟨hb0, rfl⟩ := hn
    exact contains_rem hx.toInt hy.toInt (has_toInt ha) (has_toInt hb) hb0 ha'.1 hb'.2 hr

lemma admits_compareTruth {x : Value} {a b : Int} (hx : x.Integral)
    (hy : y.Integral) (ha : x.Has a) (hb : y.Has b) (h : compareTruth op x y = .ok t) :
    t.Admits (op.holds a b) := by
  have ha' := has_toInt ha
  have hb' := has_toInt hb
  have hequal : ∀ t, equalTruth x y = .ok t → t.Admits (a == b) := by
    intro t ht
    simp only [equalTruth, hx.isAddr, hy.isAddr, Bool.or_self, Bool.false_eq_true, if_false] at ht
    exact admits_eqTruth hx.toInt hy.toInt ha' hb' ht
  cases op with
  | eq => exact hequal t h
  | ne =>
    obtain ⟨u, hu, h⟩ := bind_eq_ok.1 h
    cases h
    exact Truth.admits_not (hequal u hu)
  | lt => cases h; exact admits_ltTruth ha' hb'
  | le => cases h; exact admits_leTruth ha' hb'
  | gt => cases h; exact admits_ltTruth hb' ha'
  | ge => cases h; exact admits_leTruth hb' ha'

lemma relationTruth_eq (hs : s.relation = .none) {a b : Expr} :
    s.relationTruth env op a b t = .ok t := by
  simp [relationTruth, hs, Relation.isEnabled]

lemma evaluates_integers (hview : view.Fits C env names) :
    (K.reading names view).Evaluates C env fun _ lv places =>
      ∀ x, lv = .var x → places = some [.ofCell (env.varCell x)] where
  int := K.int
  const h := ⟨K.int (tight_constant h), fun _ _ hv => IntVal.contains_constant.2 hv.1⟩
  null h := by cases h
  unknown := ⟨K.int tight_top, fun _ _ _ => contains_top⟩
  unsupported h := by cases h
  var _ _ h := by cases h; rfl
  field h := by cases h
  index h := by cases h
  deref h := by cases h
  load hs he hplaces := by
    obtain ⟨x, rfl, hx⟩ := LValue.exists_var_of_isOver he
    rw [hplaces x rfl]
    exact (gives_loadVar hview hs hx).mono fun v hv => ⟨hv.mem, fun hd n hn => hv.has hd n hn.1⟩
  addrOf h := by cases h
  arithmetic hx hy h := by
    obtain ⟨r, rfl, hr, hmem⟩ := arithmetic_spec (integral_of_gives hx) (integral_of_gives hy) h
    refine ⟨K.int hr, ?_⟩
    rintro hd v ⟨i, j, hi, hj, hv, hfits⟩
    exact hmem i j v (hx.has hd i hi) (hy.has hd j hj) hi.admissible hj.admissible hv hfits
  settle hs hv h := gives_settle hs hv h
  compare hs hx hy ht hu := by
    cases (relationTruth_eq (K.states_integral hs).relation).symm.trans hu
    rintro hd _ ⟨i, j, hi, hj, rfl⟩
    exact admits_compareTruth (integral_of_gives hx) (integral_of_gives hy) (hx.has hd i hi)
      (hy.has hd j hj) ht

end State
end StaticAnalysis
