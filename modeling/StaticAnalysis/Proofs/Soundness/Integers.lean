import StaticAnalysis.Proofs.Program.Sequential
import StaticAnalysis.Proofs.Soundness.Members

/-!
# Integer states and what they describe

Evaluation and refinement are sound for every state of one thread whose cells hold well-formed
integers, tight or not.  The states that the analysis of a sequential integer program meets are
tight in addition, and stay so.  A `State.Family` is what the two cases share.

A `View` is what a concrete memory shows to an activation.  A state describes a view if it is
reachable and every cell it lists has a value with the integer in it.
-/

namespace StaticAnalysis

/-! ## Syntax -/

mutual

/-- An expression over integer variables with admitted names, whose constants are words. -/
def Expr.isOver (names : String → Bool) : Expr → Bool
  | .const n => Word.fits n
  | .read (.var x) => names x
  | .unknown => true
  | .arith _ a b => a.isOver names && b.isOver names
  | .neg e => e.isOver names
  | .truth c => c.isOver names
  | _ => false

/-- A condition over integer variables with admitted names, whose constants are words. -/
def Cond.isOver (names : String → Bool) : Cond → Bool
  | .always | .never => true
  | .cmp _ a b => a.isOver names && b.isOver names
  | .not c => c.isOver names
  | .and p q => p.isOver names && q.isOver names
  | .or p q => p.isOver names && q.isOver names

end

mutual

lemma Expr.isInteger_eq : ∀ e : Expr, e.isInteger = e.isOver isVariable
  | .const _ | .unknown | .addrOf _ | .null | .unsupported _ => rfl
  | .read (.var _) | .read (.field _ _) | .read (.index _ _) | .read (.deref _) => rfl
  | .arith _ a b => by rw [Expr.isInteger, Expr.isOver, Expr.isInteger_eq a, Expr.isInteger_eq b]
  | .neg e => by rw [Expr.isInteger, Expr.isOver, Expr.isInteger_eq e]
  | .truth c => by rw [Expr.isInteger, Expr.isOver, Cond.isInteger_eq c]

lemma Cond.isInteger_eq : ∀ c : Cond, c.isInteger = c.isOver isVariable
  | .always | .never => rfl
  | .cmp _ a b => by rw [Cond.isInteger, Cond.isOver, Expr.isInteger_eq a, Expr.isInteger_eq b]
  | .not c => by rw [Cond.isInteger, Cond.isOver, Cond.isInteger_eq c]
  | .and p q | .or p q => by rw [Cond.isInteger, Cond.isOver, Cond.isInteger_eq p,
    Cond.isInteger_eq q]

end

lemma LValue.exists_var_of_isOver {names : String → Bool} {lv : LValue}
    (h : (Expr.read lv).isOver names) : ∃ x, lv = .var x ∧ names x := by
  cases lv with
  | var x => exact ⟨x, rfl, h⟩
  | _ => simp [Expr.isOver] at h

/-! ## Values -/

namespace Value

variable {v w u : Value}

lemma Integral.bottom_join (hv : v.Integral) : bottom.join v = .ok v := by
  rcases hv.cases with rfl | rfl | ⟨i, rfl, -⟩ <;> rfl

lemma Integral.join (hv : v.Integral) (hw : w.Integral) (h : v.join w = .ok u) : u.Integral := by
  rcases hv.join_cases hw h with rfl | ⟨-, rfl⟩ | ⟨-, rfl⟩ | ⟨i, j, k, rfl, rfl, rfl, hk⟩
  · trivial
  · exact hw
  · exact hv
  · rcases IntVal.join_cases hv hw hk with rfl | rfl | hk
    exacts [hv, hw, hk.wellFormed]

end Value

/-! ## States -/

/-- What a concrete memory shows to an activation: the integer in each cell that a state may list,
and what the variables hold. -/
structure View where
  content? : Cell → Option Int
  read : String → Int

def Moment.view (modular : Bool) (g : Graph) (m : Moment) : View where
  content? := m.content? modular
  read := m.read g

/-- What a memory with an integer in each cell shows to an activation. -/
def View.ofCells (env : Env) (memory : Cell → Int) : View where
  content? c := some (memory c)
  read x := memory (env.varCell x)

namespace State

structure Describes (s : State) (view : View) : Prop where
  reachable : s.reachable = true
  cells : ∀ c v, s.cells.get? c = some v → ∃ n, view.content? c = some n ∧ v.Has n

/-- A state of one thread without relations, whose cells hold integers. -/
structure Integral (s : State) : Prop where
  relation : s.relation = .none
  single : s.multithreaded = false
  cells : ∀ c v, s.cells.get? c = some v → v.Integral

/-- Integral states, and values in them, that evaluation and refinement do not leave. -/
structure Family where
  values : Value → Prop
  states : State → Prop
  values_integral : ∀ {v}, values v → v.Integral
  states_integral : ∀ {s}, states s → s.Integral
  top : values .top
  int : ∀ {i : IntVal}, i.Tight → values (.int i)
  get : ∀ {s}, states s → ∀ c, values (s.get c)
  stop : ∀ {s}, states s → states s.stop
  set : ∀ {s r : State} {c : Cell} {v : Value}, states s → values v → s.set c v = .ok r → states r
  join : ∀ {s t r : State}, states s → states t → s.join t = .ok r → states r

variable {s t r : State} {view : View} {v : Value} {c : Cell}

lemma Numeric.integral (hs : s.Numeric) : s.Integral :=
  ⟨hs.flat.relation, hs.single, fun c v hv => (hs.cells c v hv).integral⟩

/-- The states of sequential integer programs. -/
def Family.numeric : Family where
  values := Value.Numeric
  states := Numeric
  values_integral h := h.integral
  states_integral h := h.integral
  top := Value.numeric_top
  int := Value.numeric_int
  get h := h.get
  stop := numeric_stop
  set := numeric_set
  join := numeric_join

lemma Integral.get (hs : s.Integral) (c : Cell) : (s.get c).Integral :=
  SortedMap.of_getD hs.cells trivial

lemma Integral.set (hs : s.Integral) (hv : v.Integral) (h : s.set c v = .ok r) : r.Integral := by
  obtain ⟨cells, rfl, hcells⟩ := set_induct h hv hs.cells
  exact ⟨hs.relation, hs.single, hcells⟩

lemma Integral.join (hs : s.Integral) (ht : t.Integral) (h : s.join t = .ok r) : r.Integral := by
  rcases merge_cases h with ⟨-, rfl⟩ | ⟨-, -, rfl⟩ | ⟨-, -, hm⟩
  · exact ht
  · exact hs
  · refine ⟨?_, by simp [hm.multithreaded, hs.single, ht.single], fun c u hu => ?_⟩
    · rw [hm.relation, hs.relation, ht.relation]
      rfl
    · obtain ⟨v, w, hv, hw, hvw⟩ := get?_mergeValues hm.cells hu
      exact (hs.cells c v hv).join (ht.cells c w hw) hvw

def Family.integral : Family where
  values := Value.Integral
  states := Integral
  values_integral := id
  states_integral := id
  top := trivial
  int := IntVal.Tight.wellFormed
  get h := h.get
  stop h := ⟨h.relation, h.single, h.cells⟩
  set := Integral.set
  join := Integral.join

lemma Describes.set (hs : s.Describes view) {n : Int} (hc : view.content? c = some n)
    (hv : v.Has n) (h : s.set c v = .ok r) : r.Describes view := by
  obtain ⟨cells, rfl, hcells⟩ := set_induct h ⟨n, hc, hv⟩ hs.cells
  exact ⟨hs.reachable, hcells⟩

lemma Describes.join (h : s.Describes view ∨ t.Describes view) (hs : s.Integral) (ht : t.Integral)
    (hr : s.join t = .ok r) : r.Describes view := by
  rcases merge_cases hr with ⟨hunreachable, rfl⟩ | ⟨-, hunreachable, rfl⟩ | ⟨-, -, hm⟩
  · exact h.resolve_left fun h => by simp [h.reachable] at hunreachable
  · exact h.resolve_right fun h => by simp [h.reachable] at hunreachable
  · refine ⟨hm.reachable, fun c u hu => ?_⟩
    obtain ⟨v, w, hv, hw, hvw⟩ := get?_mergeValues hm.cells hu
    have hjoin := fun n => (hs.cells c v hv).has_join (n := n) (ht.cells c w hw) hvw
    rcases h with h | h
    · obtain ⟨n, hn, hvn⟩ := h.cells c v hv
      exact ⟨n, hn, hjoin n (.inl hvn)⟩
    · obtain ⟨n, hn, hwn⟩ := h.cells c w hw
      exact ⟨n, hn, hjoin n (.inr hwn)⟩

lemma covers_iff {modular : Bool} {g : Graph} {m : Moment} :
    s.Covers modular m ↔ s.Describes (m.view modular g) :=
  ⟨fun h => ⟨h.reachable, h.cells⟩, fun h => ⟨h.reachable, h.cells⟩⟩

lemma Covers.join {modular : Bool} {m : Moment} (h : s.Covers modular m ∨ t.Covers modular m)
    (hs : s.Numeric) (ht : t.Numeric) (hr : s.join t = .ok r) : r.Covers modular m :=
  (covers_iff (g := {})).2 (Describes.join
    (h.imp covers_iff.1 covers_iff.1) hs.integral ht.integral hr)

end State
end StaticAnalysis
