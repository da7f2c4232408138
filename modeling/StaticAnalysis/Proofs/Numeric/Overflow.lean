import StaticAnalysis.Proofs.Numeric.Comparisons

/-!
# Overflow in operations on abstract integers

Operations on abstract integers combine the intervals and the classes with saturating or wide
arithmetic and reduce what they get.  The one word operation that can overflow is in the reduction:
the distance from a finite end of the interval to the representative of the class.

A representative is never negative, so an end is too far from it only near the least word.  Values
derived from constants do get there: `operation_returns_iff` says for which operands an operation
returns.
-/

namespace StaticAnalysis

open StaticAnalysis.Bound Congruence Fault StaticAnalysis.Interval Word

namespace IntVal

variable {a b r : IntVal} {i : Interval} {g : Congruence}

/-! ## Operations -/

inductive Operation where
  | join
  | meet
  | widen
  | narrow
  | add
  | sub
  | mul
  | div
  | rem
  | neg
  | restrict (domains : DomainSet)
  | restrictLt
  | restrictLe
  | restrictGt
  | restrictGe
  | restrictNe
deriving DecidableEq, Repr

namespace Operation

/-- The result of an operation; those with one operand do not look at the second. -/
def apply : Operation → IntVal → IntVal → Except Fault IntVal
  | join, a, b => a.join b
  | meet, a, b => a.meet b
  | widen, a, b => .ok (a.widen b)
  | narrow, a, b => a.narrow b
  | add, a, b => a.add b
  | sub, a, b => a.sub b
  | mul, a, b => a.mul b
  | div, a, b => a.div b
  | rem, a, b => a.rem b
  | neg, a, _ => a.neg
  | restrict domains, a, _ => a.restrict domains
  | restrictLt, a, b => a.restrictLt b
  | restrictLe, a, b => a.restrictLe b
  | restrictGt, a, b => a.restrictGt b
  | restrictGe, a, b => a.restrictGe b
  | restrictNe, a, b => a.restrictNe b

/-- The interval and the class that an operation reduces, unless it returns without a reduction. -/
def product : Operation → IntVal → IntVal → Option (Interval × Congruence)
  | join, a, b =>
    if a.isBottom || b.isBottom then none
    else some (a.interval.join b.interval, a.congruence.join b.congruence)
  | meet, a, b => some (a.interval.meet b.interval, a.congruence.meet b.congruence)
  | widen, _, _ => none
  | narrow, a, b => some (a.interval.narrow b.interval, a.congruence.narrow b.congruence)
  | add, a, b => some (a.interval.add b.interval, a.congruence.add b.congruence)
  | sub, a, b => some (a.interval.sub b.interval, a.congruence.sub b.congruence)
  | mul, a, b => some (a.interval.mul b.interval, a.congruence.mul b.congruence)
  | div, a, b => some (a.interval.div b.interval, a.congruence.div b.congruence)
  | rem, a, b => some (a.interval.rem b.interval, a.congruence.rem b.congruence)
  | neg, a, _ => some (a.interval.neg, a.congruence.neg)
  | restrict domains, a, _ =>
    if a.isBottom || (domains.isEmpty && a.constant?.isSome) then none
    else some (if domains.interval then a.interval else .top,
      if domains.congruence then a.congruence else .top)
  | restrictLt, a, b => some (a.interval.meet b.below, a.congruence)
  | restrictLe, a, b => some (a.interval.meet (.between .negInf b.interval.high), a.congruence)
  | restrictGt, a, b => some (a.interval.meet b.above, a.congruence)
  | restrictGe, a, b => some (a.interval.meet (.between b.interval.low .posInf), a.congruence)
  | restrictNe, a, b => b.constant?.map fun n => (trimEnds n a.interval, a.congruence)

/-- An operation returns at once, or is the reduction of a proper interval by a canonical class. -/
inductive Outcome (op : Operation) (a b : IntVal) : Prop where
  | returns (r : IntVal) (hproduct : op.product a b = none) (h : op.apply a b = .ok r)
  | reduces (i : Interval) (g : Congruence) (hproduct : op.product a b = some (i, g))
      (h : op.apply a b = reduced i g) (hi : i.Proper) (hg : g.Canonical)

lemma outcome_join (ha : a.WellFormed) (hb : b.WellFormed) : Outcome join a b := by
  by_cases hab : a.isBottom = true
  · exact .returns b (by simp [product, hab]) (by simp [apply, IntVal.join, hab])
  by_cases hbb : b.isBottom = true
  · exact .returns a (by simp [product, hbb]) (by simp [apply, IntVal.join, hab, hbb])
  · exact .reduces _ _ (by simp [product, hab, hbb]) (by simp [apply, IntVal.join, hab, hbb])
      (proper_join ha.interval hb.interval)
      (canonical_join ha.congruence hb.congruence)

lemma outcome_restrict (domains : DomainSet) (ha : a.WellFormed) :
    Outcome (restrict domains) a b := by
  by_cases hab : a.isBottom = true
  · exact .returns bottom (by simp [product, hab]) (by simp [apply, IntVal.restrict, hab])
  have hrest (hproduct : (domains.isEmpty && a.constant?.isSome) = false)
      (h : a.restrict domains = reduced (if domains.interval then a.interval else .top)
        (if domains.congruence then a.congruence else .top)) : Outcome (restrict domains) a b := by
    refine .reduces _ _ (by simp [product, hab, hproduct]) h ?_ ?_
    · split
      exacts [ha.interval, Interval.proper_top]
    · split
      exacts [ha.congruence, canonical_top]
  cases hn : a.constant? with
  | none => exact hrest (by simp [hn]) (by simp [IntVal.restrict, hab, hn])
  | some n =>
    by_cases hd : domains.isEmpty = true
    · exact .returns (constant n) (by simp [product, hd, hn])
        (by simp [apply, IntVal.restrict, hab, hn, hd])
    · exact hrest (by simp [hd]) (by simp [IntVal.restrict, hab, hn, hd])

lemma outcome_restrictNe (ha : a.WellFormed) : Outcome restrictNe a b := by
  cases hn : b.constant? with
  | none => exact .returns a (by simp [product, hn]) (by simp [apply, IntVal.restrictNe, hn])
  | some n =>
    exact .reduces _ _ (by simp [product, hn]) (by simp [apply, IntVal.restrictNe, hn])
      (proper_trimEnds n ha.interval) ha.congruence

lemma outcome (op : Operation) (ha : a.WellFormed) (hb : b.WellFormed) : Outcome op a b := by
  have hmeet {i : Interval} (hi : i.Proper) : (a.interval.meet i).Proper :=
    proper_meet ha.interval hi
  cases op with
  | join => exact outcome_join ha hb
  | meet =>
    exact .reduces _ _ rfl rfl (hmeet hb.interval) (canonical_meet ha.congruence hb.congruence)
  | widen => exact .returns _ rfl rfl
  | narrow =>
    exact .reduces _ _ rfl rfl (proper_narrow ha.interval hb.interval)
      (canonical_narrow ha.congruence hb.congruence)
  | add => exact .reduces _ _ rfl rfl (proper_add _ _) (canonical_add _ _)
  | sub => exact .reduces _ _ rfl rfl (proper_sub _ _) (canonical_sub _ _)
  | mul => exact .reduces _ _ rfl rfl (proper_mul _ _) (canonical_mul _ _)
  | div => exact .reduces _ _ rfl rfl (proper_div _ _) (canonical_div _ _)
  | rem =>
    exact .reduces _ _ rfl rfl (proper_rem ha.interval hb.interval) (canonical_rem _ _)
  | neg => exact .reduces _ _ rfl rfl (proper_neg _) (canonical_neg _)
  | restrict domains => exact outcome_restrict domains ha
  | restrictLt =>
    exact .reduces _ _ rfl (meet_ofInterval ha.congruence (constant?_below b))
      (hmeet (proper_below b)) ha.congruence
  | restrictLe =>
    exact .reduces _ _ rfl (meet_ofInterval ha.congruence (constant?_between_negInf _))
      (hmeet (proper_between fits_negInf hb.interval.high_fits)) ha.congruence
  | restrictGt =>
    exact .reduces _ _ rfl (meet_ofInterval ha.congruence (constant?_above b))
      (hmeet (proper_above b)) ha.congruence
  | restrictGe =>
    exact .reduces _ _ rfl (meet_ofInterval ha.congruence (constant?_between_posInf _))
      (hmeet (proper_between hb.interval.low_fits fits_posInf)) ha.congruence
  | restrictNe => exact outcome_restrictNe ha

lemma tight_apply {op : Operation} (ha : a.Tight) (hb : b.Tight) (h : op.apply a b = .ok r) :
    r.Tight := by
  rcases outcome op ha.wellFormed hb.wellFormed with ⟨r', hproduct, h'⟩ | ⟨i, g, -, h', hi, hg⟩
  · cases op with
    | join => exact tight_join ha hb h
    | widen =>
      cases h
      exact tight_widen ha hb
    | restrict domains => exact tight_restrict ha.wellFormed h
    | restrictNe =>
      rcases restrictNe_cases ha.wellFormed h with rfl | hr
      exacts [ha, hr]
    | _ => cases hproduct
  · exact tight_of_reduced hi hg (h'.symm.trans h)

end Operation

/-- The values that come from words by operations that returned. -/
inductive Derived : IntVal → Prop where
  | constant {n : Int} (h : Word.fits n = true) : Derived (constant n)
  | apply (op : Operation) {a b r : IntVal} (ha : Derived a) (hb : Derived b)
      (h : op.apply a b = .ok r) : Derived r

lemma Derived.tight (h : Derived a) : a.Tight := by
  induction h with
  | constant h => exact tight_constant h
  | apply op _ _ h iha ihb => exact Operation.tight_apply iha ihb h

/-! ## Distances -/

/-- An end of the interval is so near to the least word that its distance from the representative of
a class with a stride is no word. -/
def NearLeast (i : Interval) : Congruence → Prop
  | .bottom => False
  | .residue c k => i.isEmpty = false ∧ 1 < k ∧
    (.negInf < i.low ∧ i.low ≤ .finite (Word.least + c) ∨ i.high < .finite (Word.least + c))

instance : (i : Interval) → (g : Congruence) → Decidable (NearLeast i g)
  | _, .bottom => inferInstanceAs (Decidable False)
  | i, .residue c k => inferInstanceAs (Decidable (i.isEmpty = false ∧ 1 < k ∧
      (.negInf < i.low ∧ i.low ≤ .finite (Word.least + c) ∨ i.high < .finite (Word.least + c))))

/-- Representatives are not negative, so a distance is too large only on one side. -/
lemma roundable_iff (hi : i.Proper) (hg : g.Canonical) : Roundable i g ↔ ¬ NearLeast i g := by
  cases g with
  | bottom => exact iff_of_true (fun _ _ _ h => by cases h) id
  | residue c k =>
    obtain ⟨hc, hk, -, hrange⟩ := hg
    have hcg := le_greatest_of_fits hc
    constructor
    · rintro hround ⟨hie, hk1, hends⟩
      obtain ⟨hlow, hhigh⟩ := hround hie c k rfl hk1
      rcases hends with ⟨hinf, hle⟩ | hlt
      · cases hl : i.low with
        | negInf => simp [hl] at hinf
        | posInf => simp [hl] at hle
        | finite l =>
          have hfits := le_greatest_of_fits (hlow l hl)
          rw [hl, finite_le_finite] at hle
          unfold least at hle
          unfold greatest at hfits
          omega
      · cases hu : i.high with
        | negInf => exact hi.high_ne hie hu
        | posInf => simp [hu, lt_iff_not_le] at hlt
        | finite u =>
          have hfits := least_le_of_fits (hhigh u hu)
          rw [hu, lt_iff_not_le, finite_le_finite] at hlt
          omega
    · intro hnear hie c' k' heq hk1
      cases heq
      have hpos := (hrange (by omega)).1
      refine ⟨fun l hl => ?_, fun u hu => ?_⟩
      · have hfits : Word.fits l = true := by simpa [hl] using hi.low_fits
        have hlg := le_greatest_of_fits hfits
        have hfar : ¬ l ≤ least + c := fun hle =>
          hnear ⟨hie, hk1, .inl ⟨by simp [hl, lt_iff_not_le], by simpa [hl] using hle⟩⟩
        rw [Word.fits, Bool.and_eq_true, decide_eq_true_eq, decide_eq_true_eq]
        unfold least greatest at *
        omega
      · have hfits : Word.fits u = true := by simpa [hu] using hi.high_fits
        have hug := le_greatest_of_fits hfits
        have hfar : ¬ u < least + c := fun hlt =>
          hnear ⟨hie, hk1, .inr (by simpa [hu, lt_iff_not_le] using hlt)⟩
        rw [Word.fits, Bool.and_eq_true, decide_eq_true_eq, decide_eq_true_eq]
        omega

variable {e : Fault} {c k : Int}

lemma bind_sub_eq_error {x y : Int} {f : Int → Bound}
    (h : (do pure (f (← Word.sub x y)) : Except Fault Bound) = .error e) :
    e = .overflow .subtract := by
  rcases bind_eq_error.1 h with hsub | ⟨d, -, hpure⟩
  · unfold Word.sub exact at hsub
    split at hsub <;> cases hsub
    rfl
  · cases hpure

lemma raiseLow_eq_error {l : Bound} (h : raiseLow c k l = .error e) : e = .overflow .subtract := by
  cases l with
  | finite l => exact bind_sub_eq_error h
  | negInf | posInf => cases h

lemma lowerHigh_eq_error {u : Bound} (h : lowerHigh c k u = .error e) :
    e = .overflow .subtract := by
  cases u with
  | finite u => exact bind_sub_eq_error h
  | negInf | posInf => cases h

lemma reduced_eq_error (h : reduced i g = .error e) : e = .overflow .subtract := by
  unfold reduced at h
  split at h
  · cases h
  split at h
  · cases h
  split at h
  · cases h
  split at h
  · rcases bind_eq_error.1 h with hlow | ⟨low, -, h⟩
    · exact raiseLow_eq_error hlow
    rcases bind_eq_error.1 h with hhigh | ⟨high, -, h⟩
    · exact lowerHigh_eq_error hhigh
    · dsimp only at h
      split at h
      · cases h
      · split at h <;> cases h
  · split at h <;> cases h

/-- An operation on values derived from constants returns exactly if the ends of what it reduces are
not too near to the least word, and the only fault it can have is an overflow of a subtraction. -/
theorem operation_returns_iff (ha : Derived a) (hb : Derived b) (op : Operation) :
    ((∃ r, op.apply a b = .ok r) ↔ ∀ p ∈ op.product a b, ¬ NearLeast p.1 p.2) ∧
    ∀ e, op.apply a b = .error e → e = .overflow .subtract := by
  rcases Operation.outcome op ha.tight.wellFormed hb.tight.wellFormed with
    ⟨r, hproduct, h⟩ | ⟨i, g, hproduct, h, hi, hg⟩
  · rw [h, hproduct]
    exact ⟨iff_of_true ⟨r, rfl⟩ (by simp), fun e he => by cases he⟩
  · rw [h, hproduct, exists_reduced_iff, roundable_iff hi hg]
    refine ⟨by simp, fun e he => reduced_eq_error he⟩

/-- The join of two even words returns from two above the least word on. -/
theorem operation_returns_iff_above_least :
    (∃ r, Operation.join.apply (constant (Word.least + 2)) (constant (Word.least + 4)) = .ok r) ∧
    ¬ ∃ r, Operation.join.apply (constant Word.least) (constant (Word.least + 2)) = .ok r := by
  have hleast : Derived (constant Word.least) := .constant (by decide)
  have htwo : Derived (constant (Word.least + 2)) := .constant (by decide)
  have hfour : Derived (constant (Word.least + 4)) := .constant (by decide)
  constructor
  · exact (operation_returns_iff htwo hfour .join).1.2 (by decide)
  · rw [(operation_returns_iff hleast htwo .join).1]
    decide

/-- Joining the least word with an even word next to it overflows: both are in the even class, whose
representative zero is one too far from the lower end. -/
theorem join_overflows_at_least :
    Derived (constant Word.least) ∧ Derived (constant (Word.least + 2)) ∧
    (constant Word.least).join (constant (Word.least + 2)) = .error (.overflow .subtract) :=
  ⟨.constant (by decide), .constant (by decide), by decide⟩

end IntVal
end StaticAnalysis
