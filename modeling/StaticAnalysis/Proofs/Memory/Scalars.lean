import StaticAnalysis.Memory.Value
import StaticAnalysis.Proofs.Numeric.Reduction
import StaticAnalysis.Proofs.Order.Containers

/-!
# Scalar values

A value is *scalar* if it is no array and its integers are tight.  On scalar values comparison never
faults.  The one case in which values of different kinds compare is the literal zero, which is below
every address set with the null pointer.
-/

namespace StaticAnalysis

open SortedSet

/-! ## Address sets -/

namespace AddrSet

variable {a b c : AddrSet}

@[simp] lemma le_any (a : AddrSet) : a.le .any := by cases a <;> rfl

lemma le_cases (h : a.le b) : b = .any ∨ ∃ s t, a = .of s ∧ b = .of t ∧ ∀ x ∈ s, x ∈ t := by
  cases b with
  | any => exact .inl rfl
  | of t =>
    cases a with
    | any => cases h
    | of s => exact .inr ⟨s, t, rfl, rfl, subset_iff.1 h⟩

@[simp] lemma le_self (a : AddrSet) : a.le a := by
  cases a with
  | any => rfl
  | of s => exact subset_self s

lemma le_trans (hab : a.le b) (hbc : b.le c) : a.le c := by
  rcases le_cases hbc with rfl | ⟨t, u, rfl, rfl, -⟩
  · exact le_any a
  · rcases le_cases hab with hany | ⟨s, _, rfl, -⟩
    · cases hany
    · exact subset_trans hab hbc

lemma le_join_left (a b : AddrSet) : a.le (a.join b) := by
  cases a <;> cases b <;> first | exact le_any _ | skip
  exact subset_iff.2 fun x hx => mem_union.2 (.inl hx)

lemma le_join_right (a b : AddrSet) : b.le (a.join b) := by
  cases a <;> cases b <;> first | exact le_any _ | skip
  exact subset_iff.2 fun x hx => mem_union.2 (.inr hx)

lemma isBottom_of_le (h : a.le b) (hb : b.isBottom) : a.isBottom := by
  rcases le_cases h with rfl | ⟨s, t, rfl, rfl, hst⟩
  · cases hb
  · exact SortedSet.isEmpty_iff.2 fun x hx => SortedSet.isEmpty_iff.1 hb x (hst x hx)

lemma mayBeNull_of_le (h : a.le b) (ha : a.mayBeNull) : b.mayBeNull := by
  rcases le_cases h with rfl | ⟨s, t, rfl, rfl, hst⟩
  · rfl
  · exact SortedSet.contains_iff.2 (hst _ (SortedSet.contains_iff.1 ha))

lemma mayBeNull_null : null.mayBeNull := by decide

lemma isBottom_of_mayBeNull (h : a.mayBeNull) : a.isBottom = false := by
  cases a with
  | any => rfl
  | of s =>
    rw [← Bool.not_eq_true]
    intro he
    exact SortedSet.isEmpty_iff.1 he _ (SortedSet.contains_iff.1 h)

end AddrSet

namespace IntVal

lemma Tight.constant?_eq {a : IntVal} {n : Int} (ha : a.Tight) (hab : a.isBottom = false)
    (h : a.constant? = some n) : a.interval.constant? = some n := by
  unfold constant? at h
  cases hi : a.interval.constant? with
  | some m => rw [hi] at h; exact h
  | none =>
    rw [hi] at h
    refine absurd ((ha.constant_iff hab n).2 ?_) (by simp [hi])
    obtain ⟨c, k, hc⟩ := exists_residue hab
    rw [hc] at h ⊢
    by_cases hk : k = 0
    · simp_all [Congruence.constant?]
    · simp [Congruence.constant?, hk] at h

lemma Tight.constant?_of_le {a b : IntVal} {n : Int} (hab : a.isBottom = false)
    (hb : b.Tight) (hle : a.le b) (h : b.constant? = some n) : a.constant? = some n := by
  have hbb : b.isBottom = false := by
    by_contra hne
    simp [isBottom_of_le hle (by simpa using hne)] at hab
  have hi := Interval.eq_constant_of_le (isBottom_eq_false.1 hab).1 (le_iff.1 hle hab).1
    (hb.constant?_eq hbb h)
  simp [constant?, hi]

end IntVal

/-! ## Values -/

namespace Value

/-- No array, and tight if it is an integer. -/
def Scalar : Value → Prop
  | .int v => v.Tight
  | .array _ => False
  | _ => True

@[simp] lemma scalar_bottom : bottom.Scalar := trivial

@[simp] lemma scalar_top : top.Scalar := trivial

@[simp] lemma scalar_addr (a : AddrSet) : (addr a).Scalar := trivial

@[simp] lemma scalar_int {v : IntVal} : (int v).Scalar ↔ v.Tight := Iff.rfl

lemma scalar_ofInt {n : Int} (h : Word.fits n) : (ofInt n).Scalar := IntVal.tight_constant h

/-- Whether no concrete value is described, as a plain test on scalars. -/
def isVoid : Value → Bool
  | .bottom => true
  | .int v => v.isBottom
  | .addr a => a.isBottom
  | _ => false

variable {v w u : Value}

lemma isBottom_eq (h : v.Scalar) : v.isBottom = .ok v.isVoid := by
  cases v with
  | array a => exact absurd h id
  | _ => rfl

lemma depth_eq (h : v.Scalar) : v.depth = 0 := by
  cases v with
  | array a => exact absurd h id
  | _ => rfl

lemma isArray_eq (h : v.Scalar) : v.isArray = false := by
  cases v with
  | array a => exact absurd h id
  | _ => rfl

/-- Comparison of scalars, which never faults. -/
def leScalar (v w : Value) : Bool :=
  v.isVoid ||
    match v, w with
    | _, .top => true
    | .int a, .int b => a.le b
    | .addr a, .addr b => a.le b
    | .int a, .addr b => a.constant? == some 0 && b.mayBeNull
    | _, _ => false

lemma le_eq (hv : v.Scalar) (hw : w.Scalar) : v.le w = .ok (v.leScalar w) := by
  unfold le leScalar
  rw [depth_eq hv, depth_eq hw]
  unfold leWith
  rw [isBottom_eq hv]
  cases hb : v.isVoid with
  | true => rfl
  | false =>
    cases v <;> cases w <;> rfl

lemma scalar_meet (hv : v.Scalar) (hw : w.Scalar) (h : v.meet w = .ok u) : u.Scalar := by
  unfold meet at h
  rw [depth_eq hv, depth_eq hw] at h
  cases v <;> cases w
  case int.int a b =>
    obtain ⟨c, hc, h⟩ := Fault.bind_eq_ok.1 h
    cases h
    exact IntVal.tight_meet hv.wellFormed hw.wellFormed hc
  all_goals first | exact hv.elim | exact hw.elim | cases h; trivial

end Value
end StaticAnalysis
