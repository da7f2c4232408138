import StaticAnalysis.Proofs.Numeric.LeastWord
import StaticAnalysis.Proofs.Soundness.IntegerRefinement

/-!
# Refinement of sums and differences

Going backwards through `a + b`, the target of each operand is the target of the sum without the
value of the other; going backwards through `a - b`, the target of `b` is the value of `a` without
the target.  These differences inherit what a difference misses at the least word.  So a memory in
which the operands hold arbitrary words stays described, unless an operand of a sum is the least
word and the sum is the upper end of its target, or a difference is the least word and the lower end
of its target.
-/

namespace StaticAnalysis

open IntVal Value

/-- An operand holds an integer: a variable or a constant whatever it is, and any other expression
what it yields in a run. -/
inductive Expr.Holds (memory : String → Int) : Expr → Int → Prop
  | var (x : String) : Holds memory (.var x) (memory x)
  | const (n : Int) : Holds memory (.const n) n
  | yields {e : Expr} {n : Int} (he : e.isOver (fun _ => true) = true) (h : e.Yields memory n) :
    Holds memory e n

namespace State

open Step

/-- Arbitrary integer states, as they tell of a memory. -/
abbrev ofMemory (env : Env) (memory : Cell → Int) : Reading Int :=
  Family.integral.reading (fun _ => true) (.ofCells env memory)

variable {env : Env} {memory : Cell → Int} {s : State} {e a b : Expr} {m n : Int} {target : IntVal}

/-! ## Operands -/

lemma gives_eval_of_holds (hs : s.Integral) (hn : Word.fits n)
    (he : e.Holds (fun x => memory (env.varCell x)) n) :
    (s.eval env e).Meets .free ((ofMemory env memory).Gives s fun v => v = n) := by
  have hview := fits_ofCells env memory
  cases he with
  | var x =>
    unfold eval
    dsimp only [Expr.var]
    rw [resolve_var, pure_bind]
    apply (gives_loadVar (K := .integral) hview hs (x := x) rfl).bind
    intro v hv
    exact meets_lift fun u hu => gives_settle hs hv hu
  | const =>
    unfold eval
    have hgives : (ofMemory env memory).Gives s (fun v => v = n) (.int (.constant n)) := by
      refine ⟨Family.integral.int (tight_constant hn), ?_⟩
      rintro - v rfl
      exact contains_constant.2 rfl
    exact meets_lift fun u hu => gives_settle hs hgives hu
  | yields hover h =>
    apply (Reading.gives_eval (evaluates_integers (K := .integral) hview) hs e hover).mono
    intro v hv
    refine ⟨hv.mem, ?_⟩
    rintro hd v rfl
    exact hv.has hd v h

lemma meets_of_live {x : Step State} {P : Prop} (hs : s.Integral)
    (hP : P → ∃ n, target.contains n)
    (hx : x.Meets .free ((ofMemory env memory).Restricts s P)) :
    (if !s.reachable then pure s else if target.isBottom then pure s.stop else x : Step State).Meets
      .free ((ofMemory env memory).Restricts s P) := by
  split
  · exact meets_pure (.refl hs)
  split
  next hbottom =>
    refine meets_pure ⟨Family.integral.stop hs, fun _ hp => ?_⟩
    obtain ⟨n, hn⟩ := hP hp
    simp [isBottom_of_contains hn] at hbottom
  next => exact hx

section

variable (henv : env.settings.relation = .none) (hs : s.Integral)
include henv hs

lemma restricts_refine_of_holds
    (ht : target.WellFormed) (he : e.Holds (fun x => memory (env.varCell x)) n) :
    (refine env e target s).Meets .free
      ((ofMemory env memory).Restricts s (target.contains n)) := by
  have hview := fits_ofCells env memory
  cases he with
  | yields hover h =>
    apply (Reading.restricts_refine (refines_integers (K := .integral) hview henv) e hover ht hs).mono
    intro r hr
    exact hr.imp fun _ hn => ⟨n, h, hn⟩
  | var x =>
    unfold refine
    apply meets_of_live hs fun h => ⟨_, h⟩
    exact restricts_refineVar (K := .integral) hview henv hs rfl ht
  | const =>
    unfold refine
    apply meets_of_live hs fun h => ⟨_, h⟩
    exact meets_pure (.refl hs)

/-! ## Sums and differences -/

lemma restricts_refine_add (hm : Word.fits m) (hn : Word.fits n) (hsum : Word.fits (m + n))
    (ha : a.Holds (fun x => memory (env.varCell x)) m)
    (hb : b.Holds (fun x => memory (env.varCell x)) n) :
    (refine env (.arith .add a b) target s).Meets .free
      ((ofMemory env memory).Restricts s (target.contains (m + n) ∧
        ¬ ((m = Word.least ∨ n = Word.least) ∧ target.interval.high = .finite (m + n)))) := by
  unfold refine
  apply meets_of_live hs fun h => ⟨_, h.1⟩
  refine (gives_eval_of_holds hs hm ha).bind fun x hx => ?_
  refine (gives_eval_of_holds hs hn hb).bind fun y hy => ?_
  refine meets_lift_bind fun i hi => ?_
  refine (restricts_refine_of_holds henv hs (tight_sub hi).wellFormed ha).bind fun r hr => ?_
  refine meets_lift_bind fun j hj => ?_
  refine (restricts_refine_of_holds henv hr.mem (tight_sub hj).wellFormed hb).mono fun t ht => ?_
  refine hr.seq ht ?_
  rintro hd ⟨hin, hmiss⟩
  constructor
  · have hiff := contains_sub_iff (integral_of_gives hy).toInt hin
      (has_toInt (hy.has hd n rfl)) hsum hn (by simpa using hm) hi
    rw [Int.add_sub_cancel] at hiff
    exact hiff.2 fun h => hmiss ⟨.inr h.1, h.2.2⟩
  · have hiff := contains_sub_iff (integral_of_gives hx).toInt hin
      (has_toInt (hx.has hd m rfl)) hsum hm (by simpa using hn) hj
    rw [add_sub_cancel_left] at hiff
    exact hiff.2 fun h => hmiss ⟨.inl h.1, h.2.2⟩

lemma restricts_refine_sub (ht : target.WellFormed) (hm : Word.fits m) (hn : Word.fits n)
    (hdiff : Word.fits (m - n)) (ha : a.Holds (fun x => memory (env.varCell x)) m)
    (hb : b.Holds (fun x => memory (env.varCell x)) n) :
    (refine env (.arith .sub a b) target s).Meets .free
      ((ofMemory env memory).Restricts s (target.contains (m - n) ∧
        ¬ (m - n = Word.least ∧ target.interval.low = .finite Word.least))) := by
  unfold refine
  apply meets_of_live hs fun h => ⟨_, h.1⟩
  refine (gives_eval_of_holds hs hm ha).bind fun x hx => ?_
  refine (gives_eval_of_holds hs hn hb).bind fun y hy => ?_
  refine meets_lift_bind fun i hi => ?_
  refine (restricts_refine_of_holds henv hs (tight_add hi).wellFormed ha).bind fun r hr => ?_
  refine meets_lift_bind fun j hj => ?_
  refine (restricts_refine_of_holds henv hr.mem (tight_sub hj).wellFormed hb).mono fun t ht' => ?_
  refine hr.seq ht' ?_
  rintro hd ⟨hin, hmiss⟩
  constructor
  · have hadd := contains_add hin (has_toInt (hy.has hd n rfl)) (by simpa using hm) hi
    rwa [Int.sub_add_cancel] at hadd
  · have hiff := contains_sub_iff ht (has_toInt (hx.has hd m rfl)) hin hm hdiff
      (by simpa using hn) hj
    rw [Int.sub_sub_self] at hiff
    exact hiff.2 fun h => hmiss ⟨h.1, h.2.1⟩

end

/-- The difference of two words, where it is a word, is in the difference of the intervals and of
the abstract integers that they are in, exactly if it is not missed at the least word and the ends
can be rounded to the class.  So refinement of a sum or a difference of operands that hold the two
words loses a memory only if an operand of the sum is the least word and the sum the upper end of
its target, or the difference is the least word and the lower end of its target. -/
theorem difference_found_iff (hm : Word.fits m = true) (hn : Word.fits n = true) :
    (Word.fits (m - n) = true → ∀ i j : Interval, j.Proper → i.contains m = true →
      j.contains n = true → ((i.sub j).contains (m - n) = true ↔ ¬ i.MissesDifference j m n)) ∧
    (Word.fits (m - n) = true → ∀ x y : IntVal, y.WellFormed → x.contains m = true →
      y.contains n = true →
      ((∃ r, x.sub y = .ok r) ↔
        IntVal.Roundable (x.interval.sub y.interval) (x.congruence.sub y.congruence)) ∧
      ∀ r, x.sub y = .ok r →
        (r.contains (m - n) = true ↔ ¬ x.interval.MissesDifference y.interval m n)) ∧
    ∀ (ς : Type) [SharedStore ς] (store store' : ς) (env : Env) (memory : Cell → Int) (s r : State)
      (target : IntVal) (a b : Expr), env.settings.relation = .none → s.Integral →
      s.Describes (.ofCells env memory) → target.WellFormed →
      a.Holds (fun x => memory (env.varCell x)) m → b.Holds (fun x => memory (env.varCell x)) n →
      (Word.fits (m + n) = true → target.contains (m + n) = true →
        (refine env (.arith .add a b) target s).run store = .ok r store' →
        ¬ ((m = Word.least ∨ n = Word.least) ∧ target.interval.high = .finite (m + n)) →
          r.Describes (.ofCells env memory)) ∧
      (Word.fits (m - n) = true → target.contains (m - n) = true →
        (refine env (.arith .sub a b) target s).run store = .ok r store' →
        ¬ (m - n = Word.least ∧ target.interval.low = .finite Word.least) →
          r.Describes (.ofCells env memory)) := by
  refine ⟨?_, ?_, ?_⟩
  · intro hdiff i j hj him hjn
    exact Interval.contains_sub_iff hj him hjn hm hn hdiff
  · intro hdiff x y hy hxm hyn
    exact ⟨exists_reduced_iff, fun r h => contains_sub_iff hy hxm hyn hm hn hdiff h⟩
  · intro ς _ store store' env memory s r target a b henv hs hd ht ha hb
    constructor
    · intro hsum hin hr hmiss
      exact ((restricts_refine_add henv hs hm hn hsum ha hb).run hr).describes hd ⟨hin, hmiss⟩
    · intro hdiff hin hr hmiss
      exact ((restricts_refine_sub henv hs ht hm hn hdiff ha hb).run hr).describes hd ⟨hin, hmiss⟩

lemma describes_unknown (view : View) : (unknown .none).Describes view :=
  ⟨rfl, fun _ _ hv => by cases hv⟩

/-- With the greatest word in `x`, a target for `x + least` that goes on beyond the sum keeps the
memory, and the difference of `-1` and the least word is found in an interval that goes on beyond
`-1`. -/
theorem difference_found_iff_least :
    ((Interval.range (-1) 0).sub (.constant Word.least)).contains Word.greatest = true ∧
    (∃ r, (IntVal.range (-1) 0).sub (.constant Word.least) = .ok r ∧
      r.contains Word.greatest = true) ∧
    ∃ r, (refine bareMain (.arith .add (.var "x") (.const Word.least)) (.range (-1) 0)
        (unknown .none)).run (.empty : GlobalMap) = .ok r .empty ∧
      r.Describes (.ofCells bareMain fun _ => Word.greatest) := by
  have hrange : (IntVal.range (-1) 0).WellFormed :=
    (tight_ofInterval (Interval.proper_between (Bound.fits_finite.2 (by decide))
      (Bound.fits_finite.2 (by decide)))).wellFormed
  have hdiff := difference_found_iff (m := -1) (n := Word.least) (by decide) (by decide)
  have hsum := difference_found_iff (m := Word.greatest) (n := Word.least) (by decide) (by decide)
  refine ⟨?_, ⟨_, rfl, ?_⟩, ⟨_, rfl, ?_⟩⟩
  · exact (hdiff.1 (by decide) (.range (-1) 0) _ (Interval.proper_constant (by decide)) (by decide)
      (by decide)).2 (by decide)
  · have hiff := hdiff.2.1 (by decide) (.range (-1) 0) (.constant Word.least)
      (tight_constant (by decide)).wellFormed (by decide) (by decide)
    exact (hiff.2 _ rfl).2 (by decide)
  · exact (hsum.2.2 GlobalMap .empty .empty bareMain (fun _ => Word.greatest) _ _ _ _ _ rfl
      numeric_unknown.integral (describes_unknown _) hrange (.var "x") (.const _)).1 (by decide)
      (by decide) rfl (by decide)

/-- The difference of `-1` and the least word is the greatest word, and it is in neither difference.
With the greatest word in `x`, the guard `x + least == -1` holds and leaves a state that does not
describe the memory. -/
theorem sub_misses_greatest :
    -1 - Word.least = Word.greatest ∧
    ((Interval.constant (-1)).sub (.constant Word.least)).contains Word.greatest = false ∧
    (∃ r, (IntVal.constant (-1)).sub (.constant Word.least) = .ok r ∧
      r.contains Word.greatest = false) ∧
    (unknown .none).Describes (.ofCells bareMain fun _ => Word.greatest) ∧
    ∃ r, (guard bareMain true (.cmp .eq (.arith .add (.var "x") (.const Word.least)) (.const (-1)))
        (unknown .none)).run (.empty : GlobalMap) = .ok r .empty ∧
      ¬ r.Describes (.ofCells bareMain fun _ => Word.greatest) := by
  refine ⟨by decide, by decide, ⟨_, rfl, by decide⟩, describes_unknown _, ⟨_, rfl, ?_⟩⟩
  intro h
  obtain ⟨n, hn, hv⟩ := h.cells (.ofLocal "main" "x") (.int (.constant (Word.greatest - 1))) rfl
  cases hn
  exact absurd (contains_constant.1 hv) (by decide)

end State
end StaticAnalysis
