import StaticAnalysis.Proofs.Relation.FormBounds

/-!
# Soundness of boxes and octagons

Evaluation, guards and assignments keep every valuation in which what they evaluate term by term has
its exact value.  Words alone are not enough for that: partial sums may leave the word range
although the sum does not, and then the interval of a form misses its value
(`evaluation_misses_value`).
-/

namespace StaticAnalysis

open Fault LinearForm
namespace Relation

variable {r s : Relation} {x : String → Int} {name : String} {f : LinearForm}

/-- Boxes, or an octagon that operations have made, describe a valuation. -/
inductive Describes (x : String → Int) : Relation → Prop
  | boxes {b : Boxes} (hx : b.Describes x) : Describes x (.boxes b)
  | octagon {o : Octagon} (ho : o.Derived) (hx : o.Describes x) : Describes x (.octagon o)

/-- Whether sums and differences of two variables go into a matrix. -/
def hasMatrix : Relation → Bool
  | .none | .boxes _ => false
  | .octagon _ | .polyhedra _ _ => true

lemma Describes.eval (hx : r.Describes x) (hf : f.Exact r.hasMatrix x) :
    (r.eval f).contains (f.value x) := by
  cases hx with
  | boxes hx =>
    have hvalue := hf.resolve_left fun h => Bool.noConfusion h.1
    rw [← hvalue]
    exact hx.eval f
  | octagon ho hx => exact hx.eval ho.square hf

lemma Describes.guard {c : LinearConstraint} (hx : r.Describes x) (hwords : ∀ v, Word.fits (x v))
    (hc : c.Holds x) (hexact : c.Exact r.hasMatrix x) (h : r.guard c = .ok s) : s.Describes x := by
  cases hx with
  | boxes hx =>
    obtain ⟨b, hb, h⟩ := bind_eq_ok.1 h
    cases h
    exact .boxes (hx.guard hwords hc hexact hb)
  | octagon ho hx =>
    obtain ⟨p, hp, h⟩ := bind_eq_ok.1 h
    cases h
    exact .octagon (ho.guard hp) (hx.guard ho.square hwords hc hexact hp)

lemma Describes.assign {i : Interval} (hx : r.Describes x) (hi : i.contains (f.value x))
    (hexact : r.hasMatrix → f.Octagonal name ∨ f.Exact true x)
    (h : r.assign name (some f) i = .ok s) : s.Describes (Function.update x name (f.value x)) := by
  cases hx with
  | boxes hx =>
    cases h
    exact .boxes (hx.set hi)
  | octagon ho hx =>
    obtain ⟨p, hp, h⟩ := bind_eq_ok.1 h
    cases h
    exact .octagon (ho.assign hp) (hx.assign ho.square (hexact rfl) hp)

/-- Boxes and octagons that describe a valuation by words.  The value of a form is in its interval
if the saturated value is the exact one, and always for sums and differences of two variables in a
matrix.  Guards keep each valuation that satisfies the constraint, and assignments give it the new
value, if what they evaluate is evaluated exactly; it is whenever the absolute values of the terms
add up to a word.  Forms that go into the matrix, and boxes, which take the interval of the
right-hand side as given, need no such condition in assignments. -/
theorem transfers_keep_valuations (hx : r.Describes x) (hwords : ∀ v, Word.fits (x v) = true) :
    (∀ f, f.Exact r.hasMatrix x → (r.eval f).contains (f.value x) = true) ∧
    (∀ c s, c.Holds x → c.Exact r.hasMatrix x → r.guard c = .ok s → s.Describes x) ∧
    (∀ name f i s, i.contains (f.value x) = true →
      (r.hasMatrix = true → f.Octagonal name ∨ f.Exact true x) → r.assign name (some f) i = .ok s →
      s.Describes (Function.update x name (f.value x))) ∧
    (∀ f : LinearForm, (f.magnitude x : Int) ≤ Word.greatest → ∀ matrix, f.Exact matrix x) ∧
    ∀ c : LinearConstraint, (c.form.magnitude x : Int) ≤ Word.greatest → c.Exact r.hasMatrix x :=
  ⟨fun _ => hx.eval, fun _ _ => hx.guard hwords, fun _ _ _ _ => hx.assign,
    fun _ => exact_of_magnitude, fun _ h => LinearConstraint.exact_of_magnitude h r.hasMatrix⟩

def setAll (k : RelationKind) (vars : List String) (c : Int) : Except Fault Relation :=
  vars.foldlM (fun r v => r.assign v (some (.const c)) (.constant c)) (.unconstrained k)

lemma describes_setAll {k : RelationKind} {vars : List String} {c : Int}
    (hk : k = .boxes ∨ k = .octagon) (h : setAll k vars c = .ok r) : r.Describes fun _ => c := by
  have htop : (unconstrained k).Describes fun _ => c := by
    rcases hk with rfl | rfl
    · exact .boxes ⟨rfl, fun _ => Interval.contains_top⟩
    · exact .octagon .top ⟨rfl, .of_respects (Octagon.square_unconstrained .empty) rfl⟩
  refine foldlM_induct (fun r v s _ hr hs => ?_) htop h
  have := hr.assign (Interval.contains_constant.2 (value_const c _))
    (fun _ => .inl (.const rfl rfl)) hs
  rwa [value_const, Function.update_eq_self_iff.2 rfl] at this

lemma eq_ok_getD {e : Except Fault Relation} (h : e.isOk) : e = .ok (e.toOption.getD .none) := by
  cases e with
  | ok r => rfl
  | error f => cases h

/-- Where `x` and `y` are five, `2x + 3y + 1` is found to be 26, as a bound and as a new value. -/
theorem transfers_keep_valuations_fives :
    ∃ r s t, setAll .octagon ["x", "y"] 5 = .ok r ∧
      (r.eval ⟨.ofList [("x", 2), ("y", 3)], 1⟩).contains 26 = true ∧
      r.guard ⟨⟨.ofList [("x", 2), ("y", 3)], -25⟩, .le⟩ = .ok s ∧ s.Describes (fun _ => 5) ∧
      r.assign "z" (some ⟨.ofList [("x", 2), ("y", 3)], 1⟩) (.constant 26) = .ok t ∧
      t.Describes (Function.update (fun _ => 5) "z" 26) := by
  have hset : (setAll .octagon ["x", "y"] 5).isOk = true := by decide +kernel
  obtain ⟨heval, hguard, hassign, hform, hconstraint⟩ :=
    transfers_keep_valuations (describes_setAll (.inr rfl) (eq_ok_getD hset)) fun _ => rfl
  have hguarded : ((setAll .octagon ["x", "y"] 5).toOption.getD .none |>.guard
      ⟨⟨.ofList [("x", 2), ("y", 3)], -25⟩, .le⟩).isOk = true := by decide +kernel
  have hassigned : ((setAll .octagon ["x", "y"] 5).toOption.getD .none |>.assign "z"
      (some ⟨.ofList [("x", 2), ("y", 3)], 1⟩) (.constant 26)).isOk = true := by decide +kernel
  exact ⟨_, _, _, eq_ok_getD hset, heval _ (hform _ (by decide +kernel) _), eq_ok_getD hguarded,
    hguard _ _ (by decide +kernel) (hconstraint _ (by decide +kernel)) (eq_ok_getD hguarded),
    eq_ok_getD hassigned, hassign _ _ _ _ rfl (fun _ => .inr (hform _ (by decide +kernel) _))
      (eq_ok_getD hassigned)⟩

/-! ## Sums beyond the word range -/

/-- Two variables with the greatest value whose double is a word. -/
def halfRange (k : RelationKind) : Relation :=
  (setAll k ["a", "b"] 0x3fffffffffffffff).toOption.getD .none

def leastWords : Relation := (setAll .boxes ["x", "y"] Word.least).toOption.getD .none

/-- The difference `3 * a - b` leaves the word range on the way, so that its interval is wrong for
every kind of relation, and `3 * a - 2 * b` is assigned with a wrong bound.  The guard `y ≤ x` on
boxes excludes the least word for both variables. -/
theorem evaluation_misses_value :
    Word.fits (LinearForm.value ⟨.ofList [("a", 3), ("b", -1)],
    0⟩ fun _ => 0x3fffffffffffffff) = true ∧
    (∀ k ∈ [RelationKind.boxes, .octagon, .polyhedra],
      ((halfRange k).eval ⟨.ofList [("a", 3), ("b", -1)], 0⟩).contains
        (LinearForm.value ⟨.ofList [("a", 3), ("b", -1)], 0⟩ fun _ => 0x3fffffffffffffff) = false) ∧
    (∀ k ∈ [RelationKind.boxes, .octagon], (halfRange k).Describes fun _ => 0x3fffffffffffffff) ∧
    (∃ s, (halfRange .octagon).assign "s" (some ⟨.ofList [("a", 3), ("b", -2)], 0⟩)
        (.constant 0x3fffffffffffffff) = .ok s ∧ ¬ s.Describes fun _ => 0x3fffffffffffffff) ∧
    ∃ s, leastWords.Describes (fun _ => Word.least) ∧
      LinearConstraint.Holds ⟨⟨.ofList [("x", -1), ("y", 1)], 0⟩, .le⟩ (fun _ => Word.least) ∧
      leastWords.guard ⟨⟨.ofList [("x", -1), ("y", 1)], 0⟩, .le⟩ = .ok s ∧
      ¬ s.Describes fun _ => Word.least := by
  refine ⟨by decide +kernel, by decide +kernel, fun k hk => ?_, ?_, ?_⟩
  · have hkind : k = .boxes ∨ k = .octagon := by simpa using hk
    have hok : ∀ k ∈ [RelationKind.boxes, .octagon],
        (setAll k ["a", "b"] 0x3fffffffffffffff).isOk = true := by decide +kernel
    exact describes_setAll hkind (eq_ok_getD (hok k hk))
  · have hassign : ((halfRange .octagon).assign "s" (some ⟨.ofList [("a", 3), ("b", -2)], 0⟩)
        (.constant 0x3fffffffffffffff)).isOk = true := by decide +kernel
    refine ⟨_, eq_ok_getD hassign, fun hs => ?_⟩
    -- The assigned variable is found to be one.
    have hvalue := hs.eval (f := .var "s") (.inr rfl)
    revert hvalue
    decide +kernel
  · have hset : (setAll .boxes ["x", "y"] Word.least).isOk = true := by decide +kernel
    have hguard : (leastWords.guard ⟨⟨.ofList [("x", -1), ("y", 1)], 0⟩, .le⟩).isOk =
      true := by decide +kernel
    refine ⟨_, describes_setAll (.inl rfl) (eq_ok_getD hset), by decide +kernel, eq_ok_getD hguard,
      fun hs => ?_⟩
    have hvalue := hs.eval (f := .const 0) (.inr rfl)
    revert hvalue
    decide +kernel

end Relation
end StaticAnalysis
