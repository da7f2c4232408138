import StaticAnalysis.Proofs.Relation.LinearForms
import StaticAnalysis.Proofs.Runs.Semantics

/-!
# Linear forms of expressions

The linear form of an expression is over tracked variables, has no zero coefficient, and has the
exact value of the expression wherever that is a matter of sums, differences, negations and products
of variables and constants (`linear?_represents`, by induction along the expression).  The linear
constraint of a comparison holds exactly where the comparison does.
-/

namespace StaticAnalysis

open StaticAnalysis.Expr Fault List Option

namespace Fault

variable {ε α β : Type}

lemma run_bind_eq_some {x : OptionT (Except ε) α} {k : α → OptionT (Except ε) β} {b : β} :
    (x >>= k).run = .ok (some b) ↔ ∃ a, x.run = .ok (some a) ∧ (k a).run = .ok (some b) := by
  rw [OptionT.run_bind, Option.elimM, bind_eq_ok]
  constructor
  · rintro ⟨_ | a, ha, h⟩
    · cases h
    · exact ⟨a, ha, h⟩
  · rintro ⟨a, ha, h⟩
    exact ⟨some a, ha, h⟩

lemma run_liftM_eq_some {x : Except ε α} {a : α} :
    (liftM x : OptionT (Except ε) α).run = .ok (some a) ↔ x = .ok a := by
  cases x with
  | error e => exact iff_of_false (fun h => by cases h) fun h => by cases h
  | ok b =>
    change Except.ok (some b) = Except.ok (some a) ↔ _
    simp

end Fault

/-! ## Exact values -/

/-- The exact value of an expression over variables, if it is made of arithmetic only. -/
@[simp]
def Expr.value? (x : String → Int) : Expr → Option Int
  | .const n => some n
  | .read (.var v) => some (x v)
  | .neg e => (e.value? x).map (- ·)
  | .arith op a b => (a.value? x).bind fun m => (b.value? x).bind (op.result? m)
  | _ => none

/-- Whether a condition holds, given the exact values of what it compares. -/
@[simp]
def Cond.value? (x : String → Int) : Cond → Option Bool
  | .always => some true
  | .never => some false
  | .cmp op a b => (a.value? x).bind fun m => (b.value? x).map (op.holds m)
  | .not c => (c.value? x).map (! ·)
  | .and p q => (p.value? x).bind fun a => (q.value? x).map (a && ·)
  | .or p q => (p.value? x).bind fun a => (q.value? x).map (a || ·)

def LinearConstraint.Holds (c : LinearConstraint) (x : String → Int) : Prop :=
  match c.relation with
  | .eq => c.form.value x = 0
  | .le => c.form.value x ≤ 0
  | .ne => c.form.value x ≠ 0

instance : (c : LinearConstraint) → (x : String → Int) → Decidable (c.Holds x)
  | ⟨f, .eq⟩, x => inferInstanceAs (Decidable (f.value x = 0))
  | ⟨f, .le⟩, x => inferInstanceAs (Decidable (f.value x ≤ 0))
  | ⟨f, .ne⟩, x => inferInstanceAs (Decidable (f.value x ≠ 0))

/-! ## Expressions -/

/-- A form over tracked variables, without zero coefficients, that has the value of an
expression. -/
structure LinearForm.Represents (tracked : String → Bool) (f : LinearForm) (e : Expr) : Prop where
  tracked : ∀ v ∈ f.vars, tracked v = true
  trimmed : f.Trimmed
  exact : ∀ x, e.value? x = some (f.value x)

namespace LinearForm.Represents

variable {tracked : String → Bool} {a b : Expr} {f g h : LinearForm}

lemma value_of_isConstant (hf : f.isConstant) (x : String → Int) : f.value x = f.constant := by
  have hterms : f.terms = [] := List.isEmpty_iff.1 hf
  rw [value, hterms, sumTerms, Int.add_zero]

lemma const (n : Int) : (LinearForm.const n).Represents tracked (.const n) where
  tracked v hv := absurd hv not_mem_nil
  trimmed t ht := absurd ht not_mem_nil
  exact x := by rw [value_const, Expr.value?]

lemma var {v : String} (hv : tracked v) :
    (LinearForm.var v).Represents tracked (.read (.var v)) where
  tracked w hw := by
    obtain rfl : w = v := mem_singleton.1 hw
    exact hv
  trimmed t ht := by
    obtain rfl : t = (v, 1) := mem_singleton.1 ht
    exact one_ne_zero
  exact x := by rw [value_var, Expr.value?]

lemma neg (hf : f.Represents tracked a) (hneg : f.neg = .ok g) : g.Represents tracked (.neg a) where
  tracked := by
    rw [vars_neg hneg]
    exact hf.tracked
  trimmed := hf.trimmed.neg hneg
  exact x := by rw [Expr.value?, hf.exact x, value_neg hneg, map_some]

variable (hf : f.Represents tracked a) (hg : g.Represents tracked b)
include hf hg

lemma add (hadd : f.add? g = some h) : h.Represents tracked (.arith .add a b) := by
  obtain ⟨htrimmed, hvars, hvalue⟩ := add?_spec hadd
  refine ⟨fun v hv => (hvars v hv).elim (hf.tracked v) (hg.tracked v), htrimmed, fun x => ?_⟩
  rw [Expr.value?, hf.exact, hg.exact, hvalue]
  rfl

lemma sub {g' : LinearForm} (hneg : g.neg = .ok g') (hadd : f.add? g' = some h) :
    h.Represents tracked (.arith .sub a b) := by
  obtain ⟨htrimmed, hvars, hvalue⟩ := add?_spec hadd
  refine ⟨fun v hv => (hvars v hv).elim (hf.tracked v) fun hv => ?_, htrimmed, fun x => ?_⟩
  · rw [vars_neg hneg] at hv
    exact hg.tracked v hv
  · rw [Expr.value?, hf.exact, hg.exact, hvalue, value_neg hneg, ← Int.sub_eq_add_neg]
    rfl

lemma mul_left (hconst : f.isConstant) (hscale : g.scale? f.constant = some h) :
    h.Represents tracked (.arith .mul a b) := by
  obtain ⟨htrimmed, hvars, hvalue⟩ := scale?_spec hscale
  refine ⟨fun v hv => hg.tracked v (hvars v hv), htrimmed, fun x => ?_⟩
  rw [Expr.value?, hf.exact, hg.exact, hvalue, value_of_isConstant hconst, Int.mul_comm]
  rfl

lemma mul_right (hconst : g.isConstant) (hscale : f.scale? g.constant = some h) :
    h.Represents tracked (.arith .mul a b) := by
  obtain ⟨htrimmed, hvars, hvalue⟩ := scale?_spec hscale
  refine ⟨fun v hv => hf.tracked v (hvars v hv), htrimmed, fun x => ?_⟩
  rw [Expr.value?, hf.exact, hg.exact, hvalue, value_of_isConstant hconst]
  rfl

end LinearForm.Represents

variable {tracked : String → Bool} {f : LinearForm} {a b : Expr} {k : LinearConstraint}

lemma linear?_represents {e : Expr} (h : (e.linear? tracked).run = .ok (some f)) :
    f.Represents tracked e := by
  induction e using linear?.induct tracked generalizing f with
  | case1 c =>
    rw [Expr.linear?] at h
    cases h
    exact .const c
  | case2 v hv =>
    rw [Expr.linear?, if_pos hv] at h
    cases h
    exact .var hv
  | case3 v hv =>
    rw [Expr.linear?, if_neg hv] at h
    cases h
  | case4 e ih =>
    rw [Expr.linear?, run_bind_eq_some] at h
    obtain ⟨g, hg, h⟩ := h
    exact (ih hg).neg (run_liftM_eq_some.1 h)
  | case5 a b iha ihb =>
    rw [Expr.linear?, run_bind_eq_some] at h
    obtain ⟨f₁, hf₁, h⟩ := h
    obtain ⟨f₂, hf₂, h⟩ := run_bind_eq_some.1 h
    exact (iha hf₁).add (ihb hf₂) (Except.ok.inj h)
  | case6 a b iha ihb =>
    rw [Expr.linear?, run_bind_eq_some] at h
    obtain ⟨f₁, hf₁, h⟩ := h
    obtain ⟨f₂, hf₂, h⟩ := run_bind_eq_some.1 h
    obtain ⟨f₂', hneg, h⟩ := run_bind_eq_some.1 h
    exact (iha hf₁).sub (ihb hf₂) (run_liftM_eq_some.1 hneg) (Except.ok.inj h)
  | case7 a b iha ihb =>
    rw [Expr.linear?, run_bind_eq_some] at h
    obtain ⟨f₁, hf₁, h⟩ := h
    obtain ⟨f₂, hf₂, h⟩ := run_bind_eq_some.1 h
    split at h
    next hconst => exact (iha hf₁).mul_left (ihb hf₂) hconst (Except.ok.inj h)
    next =>
      split at h
      next hconst => exact (iha hf₁).mul_right (ihb hf₂) hconst (Except.ok.inj h)
      next => cases h
  | case8 e =>
    rw [Expr.linear?] at h
    · cases h
    all_goals assumption

/-! ## Conditions -/

lemma value?_of_difference? (h : (a.difference? tracked b).run = .ok (some f)) (x : String → Int) :
    ∃ m n, a.value? x = some m ∧ b.value? x = some n ∧ f.value x = m - n := by
  have hsub : a.difference? tracked b = (Expr.arith .sub a b).linear? tracked := by
    rw [Expr.linear?, Expr.difference?]
  have hexact := (linear?_represents (hsub ▸ h)).exact x
  rw [Expr.value?] at hexact
  obtain ⟨m, hm, hexact⟩ := bind_eq_some_iff.1 hexact
  obtain ⟨n, hn, hexact⟩ := bind_eq_some_iff.1 hexact
  exact ⟨m, n, hm, hn, (Option.some.inj hexact).symm⟩

lemma CmpOp.linear?_spec {op : CmpOp} (h : (op.linear? tracked a b).run = .ok (some k))
    (x : String → Int) :
    ∃ m n, a.value? x = some m ∧ b.value? x = some n ∧ (op.holds m n ↔ k.Holds x) := by
  unfold CmpOp.linear? at h
  cases op with
  | eq | ne | le | ge =>
    obtain ⟨f, hf, h⟩ := run_bind_eq_some.1 h
    cases h
    obtain ⟨m, n, hm, hn, hvalue⟩ := value?_of_difference? hf x
    refine ⟨_, _, ‹_›, ‹_›, ?_⟩
    simp only [CmpOp.holds, LinearConstraint.Holds, hvalue, beq_iff_eq, bne_iff_ne,
      decide_eq_true_eq]
    omega
  | lt | gt =>
    obtain ⟨f, hf, h⟩ := run_bind_eq_some.1 h
    obtain ⟨g, hg, h⟩ := run_bind_eq_some.1 h
    cases h
    obtain ⟨m, n, hm, hn, hvalue⟩ := value?_of_difference? hf x
    have hstrict := (LinearForm.add?_spec (Except.ok.inj hg)).2.2 x
    refine ⟨_, _, ‹_›, ‹_›, ?_⟩
    simp only [CmpOp.holds, LinearConstraint.Holds, hstrict, hvalue, LinearForm.value_const,
      decide_eq_true_eq]
    omega

lemma Cond.value?_of_linear? {c : Cond} (h : (c.linear? tracked).run = .ok (some k))
    (x : String → Int) : c.value? x = some (decide (k.Holds x)) := by
  cases c with
  | cmp op a b =>
    obtain ⟨m, n, hm, hn, hholds⟩ := CmpOp.linear?_spec h x
    rw [Cond.value?, hm, hn]
    exact congrArg some (Bool.eq_iff_iff.2 (hholds.trans decide_eq_true_iff.symm))
  | always | never | not _ | and _ _ | or _ _ => cases h

/-- The linear form of an expression mentions tracked variables only, has no zero coefficient, and
has the exact value of the expression under every assignment of integers; the linear constraint of a
condition holds exactly where the condition does. -/
theorem linearization_exact (tracked : String → Bool) :
    (∀ (e : Expr) (f : LinearForm), (e.linear? tracked).run = .ok (some f) →
      (∀ v ∈ f.vars, tracked v = true) ∧ (∀ t ∈ f.terms, t.2 ≠ 0) ∧
        ∀ x, e.value? x = some (f.value x)) ∧
    ∀ (c : Cond) (k : LinearConstraint), (c.linear? tracked).run = .ok (some k) →
      ∀ x, c.value? x = some (decide (k.Holds x)) := by
  refine ⟨fun e f h => ?_, fun c k h => Cond.value?_of_linear? h⟩
  have hf := linear?_represents h
  exact ⟨hf.tracked, hf.trimmed, hf.exact⟩

/-- The difference `2 * (x + 1) - (y + x * 2)`, in which the two terms of `x` cancel. -/
def Expr.cancelling : Expr :=
  .arith .sub (.arith .mul (.const 2) (.arith .add (.read (.var "x")) (.const 1)))
    (.arith .add (.read (.var "y")) (.arith .mul (.read (.var "x")) (.const 2)))

/-- A form from which a variable has gone, and a strict comparison with the larger side first. -/
theorem linearization_exact_cancelling :
    (Expr.cancelling.linear? fun v => v != "g").run = .ok (some ⟨.singleton "y" (-1), 2⟩) ∧
    (∀ x, Expr.cancelling.value? x = some (2 - x "y")) ∧
    ((Cond.cmp .gt (.const 5) .cancelling).linear? fun v => v != "g").run =
      .ok (some ⟨⟨.singleton "y" (-1), -2⟩, .le⟩) ∧
    ∀ x, (Cond.cmp .gt (.const 5) .cancelling).value? x = some (decide (-2 ≤ x "y")) := by
  obtain ⟨hexpr, hcond⟩ := linearization_exact fun v => v != "g"
  have hform : (Expr.cancelling.linear? fun v => v != "g").run =
      .ok (some ⟨.singleton "y" (-1), 2⟩) := by decide +kernel
  have hconstraint : ((Cond.cmp .gt (.const 5) .cancelling).linear? fun v => v != "g").run =
      .ok (some ⟨⟨.singleton "y" (-1), -2⟩, .le⟩) := by decide +kernel
  refine ⟨hform, fun x => ?_, hconstraint, fun x => ?_⟩
  · rw [(hexpr _ _ hform).2.2 x, Option.some.injEq]
    change 2 + (-1 * x "y" + 0) = 2 - x "y"
    ring
  · rw [hcond _ _ hconstraint x, Option.some.injEq, decide_eq_decide]
    change -2 + (-1 * x "y" + 0) ≤ 0 ↔ -2 ≤ x "y"
    omega

end StaticAnalysis
