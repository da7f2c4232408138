import StaticAnalysis.Proofs.Relation.Soundness

/-!
# When operations on relations return

Sums of bounds are checked.  What is not checked is the negation and the doubling of constants: when
linear forms are negated, when octagons are constrained by sums and differences or a variable is
moved, and when equations fix a variable.  Each operation returns unless one of these leaves the
word range, and for each of them there are words for which it does (`transfers_overflow`).
-/

namespace StaticAnalysis

open Fault Word List Option

namespace Fault

variable {ε α β : Type}

variable {x : Except ε α}

lemma isOk_iff : x.isOk ↔ ∃ a, x = .ok a := by
  cases x with
  | ok a => exact iff_of_true rfl ⟨a, rfl⟩
  | error e =>
    refine iff_of_false Bool.false_ne_true ?_
    rintro ⟨a, h⟩
    cases h

lemma isOk_bind_iff {f : α → Except ε β} : (x >>= f).isOk ↔ ∃ a, x = .ok a ∧ (f a).isOk := by
  constructor
  · rw [isOk_iff]
    rintro ⟨b, h⟩
    obtain ⟨a, ha, h⟩ := bind_eq_ok.1 h
    exact ⟨a, ha, isOk_iff.2 ⟨b, h⟩⟩
  · rintro ⟨a, rfl, h⟩
    exact h

lemma isOk_bind_pure_iff {f : α → β} : (x >>= fun a => .ok (f a)).isOk ↔ x.isOk := by
  rw [isOk_bind_iff, isOk_iff]
  exact exists_congr fun a => and_iff_left rfl

lemma isOk_mapM_iff {f : α → Except ε β} {l : List α} : (l.mapM f).isOk ↔ ∀ a ∈ l, (f a).isOk := by
  induction l with
  | nil => exact iff_of_true rfl fun a ha => absurd ha not_mem_nil
  | cons a l ih =>
    rw [mapM_cons, isOk_bind_iff, forall_mem_cons, ← ih, isOk_iff, ← exists_and_right]
    exact exists_congr fun b => and_congr_right fun _ => isOk_bind_pure_iff

lemma isOk_run_bind_iff {x : OptionT (Except ε) α} {k : α → OptionT (Except ε) β} :
    (x >>= k).run.isOk ↔ x.run.isOk ∧ ∀ a, x.run = .ok (some a) → (k a).run.isOk := by
  rw [OptionT.run_bind, Option.elimM]
  rcases x.run with e | _ | a
  · exact iff_of_false Bool.false_ne_true fun h => Bool.false_ne_true h.1
  · exact iff_of_true rfl ⟨rfl, fun a h => by cases h⟩
  · refine ⟨fun h => ⟨rfl, fun b hb => ?_⟩, fun h => h.2 a rfl⟩
    cases hb
    exact h

lemma isOk_run_pure (o : Option α) : (OptionT.mk (pure o) : OptionT (Except ε) α).run.isOk := rfl

lemma isOk_run_liftM_iff : (liftM x : OptionT (Except ε) α).run.isOk ↔ x.isOk := by
  cases x <;> exact Iff.rfl

end Fault

lemma Word.isOk_exact_iff {op : WordOp} {a : Int} : (exact op a).isOk ↔ fits a := by
  unfold exact
  split
  next h => exact iff_of_true rfl h
  next h => exact iff_of_false Bool.false_ne_true h

/-- The negated constant and all negated coefficients are words. -/
def LinearForm.Negatable (f : LinearForm) : Prop :=
  ∀ a ∈ f.constant :: f.coeffs.values, Word.fits (-a) = true

instance (f : LinearForm) : Decidable f.Negatable :=
  inferInstanceAs (Decidable (∀ a ∈ f.constant :: f.coeffs.values, Word.fits (-a) = true))

lemma LinearForm.isOk_neg_iff {f : LinearForm} : f.neg.isOk ↔ f.Negatable := by
  rw [isOk_iff]
  constructor
  · rintro ⟨g, hg⟩
    exact (neg_eq_ok.1 hg).1
  · exact fun h => ⟨_, neg_eq_ok.2 ⟨h, rfl⟩⟩

/-! ## Linear forms of expressions -/

namespace Expr

variable {tracked : String → Bool} {a b e : Expr} {f : LinearForm}

/-- The linear form of an expression, where one is returned. -/
def form? (tracked : String → Bool) (e : Expr) : Option LinearForm :=
  (e.linear? tracked).run.toOption.join

lemma form?_eq_some : e.form? tracked = some f ↔ (e.linear? tracked).run = .ok (some f) := by
  unfold form?
  rcases (e.linear? tracked).run with _ | _ | g <;> simp [Except.toOption]

/-- The forms that are negated on the way to the form of an expression: those of the operands of
negations and of the right operands of differences.  A right operand counts only if the left one has
a form. -/
def negated (tracked : String → Bool) : Expr → List LinearForm
  | .neg e => e.negated tracked ++ (e.form? tracked).toList
  | .arith .add a b | .arith .mul a b =>
    a.negated tracked ++ (a.form? tracked).toList.flatMap fun _ => b.negated tracked
  | .arith .sub a b =>
    a.negated tracked ++ (a.form? tracked).toList.flatMap fun _ =>
      b.negated tracked ++ (b.form? tracked).toList
  | _ => []

lemma isOk_linear?_iff : (e.linear? tracked).run.isOk ↔ ∀ f ∈ e.negated tracked, f.Negatable := by
  induction e using linear?.induct tracked with
  | case1 c => exact iff_of_true rfl fun f hf => absurd hf not_mem_nil
  | case2 v hv | case3 v hv =>
    simp only [linear?, hv]
    exact iff_of_true rfl fun f hf => absurd hf not_mem_nil
  | case4 e ih =>
    rw [linear?, isOk_run_bind_iff, ih, negated, forall_mem_append]
    simp only [mem_toList, form?_eq_some, isOk_run_liftM_iff, LinearForm.isOk_neg_iff]
  | case5 a b iha ihb =>
    rw [linear?, isOk_run_bind_iff, iha, negated, forall_mem_append]
    simp only [isOk_run_bind_iff, ihb, isOk_run_pure, forall_mem_flatMap, mem_toList,
      form?_eq_some, implies_true, and_true]
  | case6 a b iha ihb =>
    rw [linear?, isOk_run_bind_iff, iha, negated, forall_mem_append]
    simp only [isOk_run_bind_iff, ihb, isOk_run_pure, isOk_run_liftM_iff, LinearForm.isOk_neg_iff,
      forall_mem_flatMap, forall_mem_append, mem_toList, form?_eq_some, implies_true, and_true]
  | case7 a b iha ihb =>
    rw [linear?, isOk_run_bind_iff, iha, negated, forall_mem_append]
    have hscale : ∀ f g : LinearForm, (if f.isConstant then OptionT.mk (pure (g.scale? f.constant))
        else if g.isConstant then OptionT.mk (pure (f.scale? g.constant))
        else failure : OptionT (Except Fault) LinearForm).run.isOk = true := by
      intro f g
      split
      · rfl
      · split <;> rfl
    simp only [isOk_run_bind_iff, ihb, hscale, forall_mem_flatMap, mem_toList,
      form?_eq_some, implies_true, and_true]
  | case8 e =>
    rw [linear?, negated]
    · exact iff_of_true rfl fun f hf => absurd hf not_mem_nil
    all_goals assumption

end Expr

/-- A comparison takes the difference of its sides. -/
def Cond.negated (tracked : String → Bool) : Cond → List LinearForm
  | .cmp .ge a b | .cmp .gt a b => (Expr.arith .sub b a).negated tracked
  | .cmp _ a b => (Expr.arith .sub a b).negated tracked
  | _ => []

lemma Cond.isOk_linear?_iff {tracked : String → Bool} {c : Cond} :
    (c.linear? tracked).run.isOk ↔ ∀ f ∈ c.negated tracked, f.Negatable := by
  have hsub : ∀ a b : Expr, (a.difference? tracked b).run.isOk = true ↔
      ∀ f ∈ (Expr.arith .sub a b).negated tracked, f.Negatable := by
    intro a b
    rw [← Expr.isOk_linear?_iff, Expr.linear?, Expr.difference?]
  cases c with
  | cmp op a b =>
    cases op with
    | eq | ne | le | ge =>
      refine isOk_run_bind_iff.trans ((and_iff_left fun _ _ => rfl).trans ?_)
      exact hsub _ _
    | lt | gt =>
      refine isOk_run_bind_iff.trans ((and_iff_left fun f _ => ?_).trans (hsub _ _))
      exact isOk_run_bind_iff.2 ⟨rfl, fun _ _ => rfl⟩
  | always | never | not | and | or => exact iff_of_true rfl fun f hf => absurd hf not_mem_nil

/-- A guard negates the form of an equality, and where there is a matrix the constant of a bound on
a sum or a difference of two variables. -/
def LinearConstraint.GuardReturns (matrix : Bool) (c : LinearConstraint) : Prop :=
  match c.relation with
  | .eq => c.form.Negatable
  | .le => matrix = true → c.form.IsPair → Word.fits (-c.form.constant) = true
  | .ne => True

/-! ## Octagons -/

namespace Octagon

variable {o : Octagon} {name : String} {f : LinearForm} {c : Int} {k : Nat}

/-- The matrix has a bound for the double of a variable. -/
def bounded (o : Octagon) (name : String) : Bool :=
  (o.index? name).any fun k => (o.bound (2 * k + 1) (2 * k)).isSome || (o.bound (2 * k)
    (2 * k + 1)).isSome

lemma isOk_translate_iff : (o.translate name c).isOk ↔ (o.bounded name → Word.fits (2 * c)) := by
  unfold translate bounded
  cases hk : o.index? name with
  | none => exact iff_of_true rfl fun h => by cases h
  | some k =>
    rw [any_some]
    dsimp only
    split
    next hb =>
      rw [imp_iff_right hb]
      exact isOk_bind_pure_iff.trans isOk_exact_iff
    next hb => exact iff_of_true rfl fun h => absurd h hb

/-- The assignment `x := f` doubles the constant of `x + c` if `x` has bounds, and negates the one
of `y + c` and `-y + c`. -/
def AssignReturns (o : Octagon) (name : String) (f : LinearForm) : Prop :=
  (f.coeff name = 1 → (f.drop name).support = [] → (o.tracking name f).bounded name = true →
      Word.fits (2 * f.constant) = true) ∧
    (f.coeff name = 0 → ∀ v a, (f.drop name).support = [(v, a)] → (a = 1 ∨ a = -1) →
      Word.fits (-f.constant) = true)

lemma isOk_iff_of_feasible {α : Type} {y : Except Fault α} {P : Prop}
    (hempty : o.infeasible → y.isOk)
    (hfeasible : o.infeasible = false → (y.isOk ↔ P)) :
    y.isOk ↔ (o.infeasible = false → P) := by
  cases hf : o.infeasible with
  | true => exact iff_of_true (hempty hf) fun h => by cases h
  | false => exact (hfeasible hf).trans (imp_iff_right rfl).symm

lemma isOk_assign_iff :
    (o.assign name f).isOk ↔ (o.infeasible = false → o.AssignReturns name f) := by
  refine isOk_iff_of_feasible (fun hf => ?_) fun hf => ?_
  · unfold assign
    rw [hf]
    rfl
  by_cases hform : f.Octagonal name
  · cases hform with
    | const hself hrest =>
      rw [assign_const hf hself hrest]
      refine iff_of_true rfl ⟨fun h => ?_, fun _ v a h => ?_⟩
      · rw [hself] at h
        cases h
      · rw [hrest] at h
        cases h
    | shift hself hrest =>
      rw [assign_shift hf hself hrest, isOk_translate_iff]
      refine ⟨fun h => ⟨fun _ _ => h, fun hzero => ?_⟩, fun h => h.1 hself hrest⟩
      rw [hself] at hzero
      cases hzero
    | other hself hrest ha =>
      obtain ⟨k, q, -, -, hassign⟩ := assign_other hf hself hrest ha
      have hneg : (o.assign name f).isOk = true ↔ Word.fits (-f.constant) = true := by
        rw [hassign]
        exact isOk_bind_pure_iff.trans isOk_exact_iff
      rw [hneg]
      refine ⟨fun h => ⟨fun hone => ?_, fun _ _ _ _ _ => h⟩, fun h => h.2 hself _ _ hrest ha⟩
      rw [hself] at hone
      cases hone
  · rw [assign_general hf hform]
    exact iff_of_true rfl ⟨fun hself hrest => absurd (.shift hself hrest) hform,
      fun hself v a hrest ha => absurd (.other hself hrest ha) hform⟩

lemma isOk_guardLe_iff : (o.guardLe f).isOk ↔ (f.IsPair → Word.fits (-f.constant)) := by
  by_cases hpair : f.IsPair
  · obtain ⟨i, j, -, -, -, hguard⟩ := guardLe_pair o hpair
    rw [imp_iff_right hpair, hguard]
    exact isOk_bind_pure_iff.trans isOk_exact_iff
  · refine iff_of_true ?_ fun h => absurd h hpair
    by_cases hsmall : f.IsSmall
    · unfold guardLe
      rcases hsmall with hnil | ⟨v, a, hone, ha⟩ | h
      · rw [hnil]
        rfl
      · simp only [hone, isUnit_iff.2 ha, if_true]
        split <;> rfl
      · exact absurd h hpair
    · rw [guardLe_of_not_small o hsmall]
      rfl

lemma isOk_guard_iff {c : LinearConstraint} (hc : Word.fits c.form.constant) :
    (o.guard c).isOk ↔ (o.infeasible = false → c.GuardReturns true) := by
  unfold guard LinearConstraint.GuardReturns
  refine isOk_iff_of_feasible (fun hf => by rw [hf]; rfl) fun hf => ?_
  rw [hf, if_neg (by decide)]
  cases c.relation with
  | ne => exact iff_of_true rfl trivial
  | le => exact isOk_guardLe_iff.trans (imp_iff_right rfl).symm
  | eq =>
    dsimp only
    simp only [isOk_bind_iff]
    constructor
    · rintro ⟨p, -, g, hg, -⟩
      exact LinearForm.isOk_neg_iff.1 (isOk_iff.2 ⟨g, hg⟩)
    · intro hneg
      obtain ⟨p, hp⟩ := isOk_iff.1 (isOk_guardLe_iff (o := o).2 fun _ => hneg _ mem_cons_self)
      obtain ⟨g, hg⟩ := isOk_iff.1 (LinearForm.isOk_neg_iff.2 hneg)
      refine ⟨p, hp, g, hg, isOk_guardLe_iff.2 fun _ => ?_⟩
      -- The second negation gives back the constant.
      rw [(LinearForm.neg_eq_ok.1 hg).2, Int.neg_neg]
      exact hc

/-- The lower bounds on sums of two variables are printed with a negated entry of the closed
matrix. -/
def ConstraintsReturn (o : Octagon) : Prop :=
  ∀ k l, k < l → l < o.close.vars.size → ∀ v, o.close.bound (2 * k) (2 * l + 1) = some v →
    Word.fits (-v) = true

lemma isOk_pairTexts_iff {l : Nat} {x y : String} : (o.pairTexts k l x y).isOk ↔
    ∀ v, o.bound (2 * k) (2 * l + 1) = some v → Word.fits (-v) := by
  unfold pairTexts
  cases o.bound (2 * k) (2 * l + 1) with
  | none => exact iff_of_true rfl fun v hv => by cases hv
  | some v =>
    simp only [some.injEq, forall_eq']
    exact isOk_bind_pure_iff.trans isOk_exact_iff

lemma mem_drop_zipIdx {α : Type} {l : List α} {n i : Nat} {x : α} :
    (x, i) ∈ l.zipIdx.drop n ↔ n ≤ i ∧ l[i]? = some x := by
  rw [mem_iff_getElem?]
  simp only [getElem?_drop, getElem?_zipIdx, map_eq_some_iff, Nat.zero_add, Prod.mk.injEq]
  constructor
  · rintro ⟨j, y, hy, rfl, rfl⟩
    exact ⟨Nat.le_add_right n j, hy⟩
  · rintro ⟨hn, hx⟩
    rw [← Nat.add_sub_cancel' hn] at hx
    exact ⟨i - n, x, hx, rfl, Nat.add_sub_cancel' hn⟩

lemma isOk_constraints_iff : o.constraints.isOk ↔ (o.infeasible = false → o.ConstraintsReturn) := by
  unfold constraints
  refine isOk_iff_of_feasible (fun hf => by rw [hf]; rfl) fun hf => ?_
  rw [hf, if_neg (by decide)]
  refine isOk_bind_pure_iff.trans (isOk_mapM_iff.trans ⟨fun h k l hkl hl => ?_, fun h p hp => ?_⟩)
  · have hx := mem_drop_zipIdx.2 ⟨Nat.zero_le k, getElem?_eq_getElem (hkl.trans hl)⟩
    have hy := mem_drop_zipIdx.2 ⟨hkl, getElem?_eq_getElem hl⟩
    exact isOk_pairTexts_iff.1 (isOk_mapM_iff.1 (isOk_bind_pure_iff.1 (h _ hx)) _ hy)
  · obtain ⟨x, k⟩ := p
    refine isOk_bind_pure_iff.2 (isOk_mapM_iff.2 fun q hq => ?_)
    obtain ⟨y, l⟩ := q
    obtain ⟨hkl, hy⟩ := mem_drop_zipIdx.1 hq
    exact isOk_pairTexts_iff.2 (h k l hkl (List.getElem?_eq_some_iff.1 hy).1)

end Octagon

lemma Boxes.isOk_guard_iff {b : Boxes} {c : LinearConstraint} :
    (b.guard c).isOk ↔ c.GuardReturns false := by
  unfold Boxes.guard LinearConstraint.GuardReturns
  cases c.relation with
  | eq => exact isOk_bind_pure_iff.trans LinearForm.isOk_neg_iff
  | le => exact iff_of_true rfl fun h => by cases h
  | ne => exact iff_of_true rfl trivial

/-! ## Relations -/

namespace Relation

variable {r : Relation} {name : String}

def octagon? : Relation → Option Octagon
  | .none | .boxes _ => Option.none
  | .octagon o | .polyhedra o _ => some o

/-- Only assignments of forms to octagons that may have valuations can fault. -/
def AssignReturns (r : Relation) (name : String) (form : Option LinearForm) : Prop :=
  ∀ o f, r.octagon? = some o → form = some f → o.infeasible = false → o.AssignReturns name f

lemma isOk_assign_iff {form : Option LinearForm} {i : Interval} :
    (r.assign name form i).isOk ↔ r.AssignReturns name form := by
  have hoctagon : ∀ {o : Octagon} {f : LinearForm}, r.octagon? = some o → form = some f →
      ((o.assign name f).isOk = true ↔ r.AssignReturns name form) := by
    intro o f ho hf
    rw [Octagon.isOk_assign_iff, AssignReturns]
    simp only [ho, hf, some.injEq, forall_apply_eq_imp_iff, forall_eq']
  cases form with
  | none =>
    refine iff_of_true ?_ fun o f _ hf => by cases hf
    cases r <;> rfl
  | some f =>
    cases r with
    | none | boxes => exact iff_of_true rfl fun o f ho => by cases ho
    | octagon o => exact isOk_bind_pure_iff.trans (hoctagon rfl rfl)
    | polyhedra o a => exact isOk_bind_pure_iff.trans (hoctagon rfl rfl)

/-- Guards of boxes, and of octagons that may have valuations. -/
def GuardReturns (c : LinearConstraint) : Relation → Prop
  | .none => True
  | .boxes _ => c.GuardReturns false
  | .octagon o | .polyhedra o _ => o.infeasible = false → c.GuardReturns true

lemma isOk_guard_iff {c : LinearConstraint} (hc : Word.fits c.form.constant) :
    (r.guard c).isOk ↔ r.GuardReturns c := by
  cases r with
  | none => exact iff_of_true rfl trivial
  | boxes b => exact isOk_bind_pure_iff.trans Boxes.isOk_guard_iff
  | octagon o => exact isOk_bind_pure_iff.trans (Octagon.isOk_guard_iff hc)
  | polyhedra o a => exact isOk_bind_pure_iff.trans (Octagon.isOk_guard_iff hc)

lemma isOk_setBounds_iff {i : Interval} : (r.setBounds name i).isOk ↔
    (r.kind = .polyhedra → i.isEmpty = false → ∀ c, i.constant? = some c → Word.fits (-c)) := by
  cases r with
  | none | boxes | octagon => exact iff_of_true rfl fun h => by cases h
  | polyhedra o a =>
    refine Iff.trans ?_ (imp_iff_right rfl).symm
    unfold Relation.setBounds
    dsimp only
    cases i.isEmpty with
    | true => exact iff_of_true rfl fun h => by cases h
    | false =>
      cases i.constant? with
      | none => exact iff_of_true rfl fun _ c hc => by cases hc
      | some c =>
        refine (isOk_bind_pure_iff.trans isOk_exact_iff).trans ?_
        simp only [some.injEq, forall_eq', true_imp_iff]

/-- Only octagons that may have valuations are printed with negated entries. -/
def ConstraintsReturn (r : Relation) : Prop :=
  ∀ o, r.octagon? = some o → o.infeasible = false → o.ConstraintsReturn

lemma isOk_constraints_iff : r.constraints.isOk ↔ r.ConstraintsReturn := by
  have hoctagon : ∀ {o : Octagon}, r.octagon? = some o →
      (o.constraints.isOk = true ↔ r.ConstraintsReturn) := by
    intro o ho
    rw [Octagon.isOk_constraints_iff, ConstraintsReturn]
    simp only [ho, some.injEq, forall_eq']
  cases r with
  | none | boxes => exact iff_of_true rfl fun o ho => by cases ho
  | octagon o => exact hoctagon rfl
  | polyhedra o a => exact isOk_bind_pure_iff.trans (hoctagon rfl)

/-- When operations of a relation return.  An assignment returns if the doubled or negated constant
that goes into the octagon is a word, a guard if the negated form of an equality and the negated
constant of a bound on two variables are.  Bounds for a variable go into the equations with the
negated constant, and constraints are listed with negated entries of the closed matrix.  The linear
form of an expression and the constraint of a comparison need the negation of every form that is
subtracted on the way to them. -/
theorem transfers_return_iff (r : Relation) :
    (∀ name form i, (r.assign name form i).isOk = true ↔ r.AssignReturns name form) ∧
    (∀ c, Word.fits c.form.constant = true → ((r.guard c).isOk = true ↔ r.GuardReturns c)) ∧
    (∀ name i, (r.setBounds name i).isOk = true ↔ (r.kind = .polyhedra →
      i.isEmpty = false → ∀ c, i.constant? = some c → Word.fits (-c) = true)) ∧
    (r.constraints.isOk = true ↔ r.ConstraintsReturn) ∧
    (∀ f : LinearForm, f.neg.isOk = true ↔ f.Negatable) ∧
    (∀ tracked (e : Expr),
      (e.linear? tracked).run.isOk = true ↔ ∀ f ∈ e.negated tracked, f.Negatable) ∧
    ∀ tracked (c : Cond),
      (c.linear? tracked).run.isOk = true ↔ ∀ f ∈ c.negated tracked, f.Negatable :=
  ⟨fun _ _ _ => isOk_assign_iff, fun _ => isOk_guard_iff, fun _ _ => isOk_setBounds_iff,
    isOk_constraints_iff, fun _ => LinearForm.isOk_neg_iff, fun _ _ => Expr.isOk_linear?_iff,
    fun _ _ => Cond.isOk_linear?_iff⟩

/-- The constant `-3` can be negated: `x := y - 3` and `x + y ≤ 3` go into an octagon, also with a
zero coefficient, and `3 - x` has a linear form. -/
theorem transfers_return_small :
    ((unconstrained .octagon).assign "x" (some ⟨.ofList [("y", 1), ("z", 0)], -3⟩) .top).isOk = true ∧
    ((unconstrained .octagon).guard ⟨⟨.ofList [("x", 1), ("y", 1), ("z", 0)], -3⟩,
      .le⟩).isOk = true ∧
    (Expr.linear? (fun _ => true) (.arith .sub (.const 3) (.read (.var "x")))).run.isOk = true := by
  obtain ⟨hassign, hguard, -, -, -, hlinear, -⟩ := transfers_return_iff (unconstrained .octagon)
  refine ⟨(hassign _ _ _).2 ?_, (hguard _ (by decide)).2 fun _ _ _ => by decide,
    (hlinear _ _).2 (by decide)⟩
  intro o f ho hf _
  cases ho
  cases hf
  exact ⟨fun h => absurd h (by decide), fun _ v a _ _ => by decide⟩

/-- A sum of two variables that is at least the greatest word, by way of a third variable. -/
def negatedSum : Except Fault Relation := do
  let r ← (unconstrained .octagon).guard ⟨⟨.ofList [("x", -1), ("z", -1)], Word.greatest⟩, .le⟩
  r.guard ⟨⟨.ofList [("y", -1), ("z", 1)], 1⟩, .le⟩

/-- Words for which operations fault: a negated least word, or a doubled word beyond the range. -/
theorem transfers_overflow :
    (unconstrained .octagon).assign "x" (some ⟨.ofList [("y", 1), ("z", 0)], Word.least⟩) .top =
      .error (.overflow .negate) ∧
    (setAll .octagon ["x"] 5 >>= fun r =>
      r.assign "x" (some ⟨.ofList [("x", 1)], 0x4000000000000000⟩) .top) =
        .error (.overflow .multiply) ∧
    (unconstrained .boxes).guard ⟨⟨.ofList [("x", 1)], Word.least⟩, .eq⟩ =
      .error (.overflow .negate) ∧
    (unconstrained .octagon).guard ⟨⟨.ofList [("x", 1), ("y", 1), ("z", 0)], Word.least⟩, .le⟩ =
      .error (.overflow .negate) ∧
    (unconstrained .polyhedra).setBounds "x" (.constant Word.least) = .error (.overflow .negate) ∧
    (negatedSum >>= constraints) = .error (.overflow .negate) ∧
    (Expr.linear? (fun _ => true) (.neg (.const Word.least))).run = .error (.overflow .negate) ∧
    (Cond.linear? (fun _ => true) (.cmp .lt (.read (.var "x")) (.const Word.least))).run =
      .error (.overflow .negate) := by
  decide +kernel

end Relation
end StaticAnalysis
