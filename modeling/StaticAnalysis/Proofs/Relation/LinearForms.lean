import Mathlib.Tactic.Ring
import StaticAnalysis.Proofs.Order.Containers
import StaticAnalysis.Proofs.Relation.Closure
import StaticAnalysis.Relation.LinearForm

/-!
# Values of linear forms

A linear form has a value for every assignment of integers to the variables, and a linear constraint
compares it with zero.  Wherever the sum, the multiple or the negation of forms is a form again, its
value is the sum, the multiple or the negation of theirs, and it mentions no other variables.  A
variable can be split off: the value is its term plus the value of the form without it.
-/

namespace StaticAnalysis

open Option SortedMap

namespace LinearForm

variable {f g h : LinearForm} {x y : String → Int} {v : String} {a k : Int}

def sumTerms (x : String → Int) : List (String × Int) → Int
  | [] => 0
  | t :: terms => t.2 * x t.1 + sumTerms x terms

/-- The exact value of a form. -/
def value (f : LinearForm) (x : String → Int) : Int := f.constant + sumTerms x f.terms

def Trimmed (f : LinearForm) : Prop := ∀ t ∈ f.terms, t.2 ≠ 0

/-! ## Sums of terms -/

lemma sumTerms_congr {terms : List (String × Int)} (h : ∀ t ∈ terms, x t.1 = y t.1) :
    sumTerms x terms = sumTerms y terms := by
  induction terms with
  | nil => rfl
  | cons t terms ih =>
    simp only [sumTerms, h t List.mem_cons_self, ih fun u hu => h u (List.mem_cons_of_mem t hu)]

lemma sumTerms_filter (p : String × Int → Bool) {terms : List (String × Int)}
    (h : ∀ t ∈ terms, p t = false → t.2 = 0) :
    sumTerms x (terms.filter p) = sumTerms x terms := by
  induction terms with
  | nil => rfl
  | cons t terms ih =>
    have ih := ih fun u hu => h u (List.mem_cons_of_mem t hu)
    cases hp : p t with
    | true => rw [List.filter_cons_of_pos hp, sumTerms, sumTerms, ih]
    | false =>
      rw [List.filter_cons_of_neg (by simp [hp]), sumTerms, ih, h t List.mem_cons_self hp]
      ring

lemma sumTerms_map_mul (k : Int) (terms : List (String × Int)) :
    sumTerms x (terms.map fun t => (t.1, t.2 * k)) = sumTerms x terms * k := by
  induction terms with
  | nil => simp [sumTerms]
  | cons t terms ih =>
    rw [List.map_cons, sumTerms, sumTerms, ih]
    ring

lemma sumTerms_place (v : String) (a : Int) (terms : List (String × Int)) :
    sumTerms x (place v a terms) =
      sumTerms x terms + (a - (lookup v terms).getD 0) * x v := by
  induction terms with
  | nil => simp [place, lookup, sumTerms]
  | cons t terms ih =>
    rw [place, lookup]
    cases hc : compare v t.1 with
    | lt =>
      simp only [sumTerms, getD_none]
      ring
    | eq =>
      simp only [sumTerms, getD_some, Std.LawfulEqCmp.eq_of_compare hc]
      ring
    | gt =>
      simp only [sumTerms, ih]
      ring

lemma sumTerms_erase (v : String) {terms : List (String × Int)}
    (h : terms.Pairwise fun p q => compare p.1 q.1 = .lt) :
    sumTerms x terms = (lookup v terms).getD 0 * x v +
      sumTerms x (terms.filter fun t => compare v t.1 != .eq) := by
  induction terms with
  | nil => simp [lookup, sumTerms]
  | cons t terms ih =>
    obtain ⟨hhead, htail⟩ := List.pairwise_cons.1 h
    have hkeep : compare v t.1 ≠ .gt → terms.filter (fun u => compare v u.1 != .eq) = terms := by
      intro hv
      refine List.filter_eq_self.2 fun u hu => ?_
      have hlt : compare v u.1 = .lt := by
        cases hc : compare v t.1 with
        | lt => exact Std.TransCmp.lt_trans hc (hhead u hu)
        | eq => exact Std.TransCmp.lt_of_eq_of_lt hc (hhead u hu)
        | gt => exact absurd hc hv
      simp [hlt]
    rw [lookup]
    cases hc : compare v t.1 with
    | lt =>
      rw [List.filter_cons_of_pos (by simp [hc]), hkeep (by simp [hc])]
      simp
    | eq =>
      rw [List.filter_cons_of_neg (by simp [hc]), hkeep (by simp [hc])]
      simp only [sumTerms, getD_some, Std.LawfulEqCmp.eq_of_compare hc]
    | gt =>
      rw [List.filter_cons_of_pos (by simp [hc]), sumTerms, sumTerms, ih htail]
      ring

/-! ## Variables and coefficients -/

lemma mem_vars : v ∈ f.vars ↔ ∃ a, (v, a) ∈ f.terms := by
  simp [vars, terms, keys]

lemma coeff_of_mem (h : (v, a) ∈ f.terms) : f.coeff v = a := by
  rw [coeff, getD_eq, get?_eq_some_iff.2 h, getD_some]

lemma mem_terms_drop {t : String × Int} : t ∈ (f.drop v).terms ↔ t ∈ f.terms ∧ t.1 ≠ v := by
  obtain ⟨w, a⟩ := t
  rw [terms, terms, ← get?_eq_some_iff, ← get?_eq_some_iff]
  unfold drop
  rw [get?_erase]
  by_cases h : w = v
  · simp [h]
  · simp [h]

lemma terms_drop (f : LinearForm) (v : String) : (f.drop v).terms = f.terms.filter (·.1 != v) := by
  refine List.filter_congr fun t _ => ?_
  rw [Bool.eq_iff_iff, bne_iff_ne, bne_iff_ne, ne_eq, Std.compare_eq_iff_eq, eq_comm]

lemma support_drop (f : LinearForm) (v : String) :
    (f.drop v).support = f.support.filter (·.1 != v) := by
  rw [support, support, terms_drop, List.filter_comm]

lemma mem_terms_of_support {t : String × Int} (h : t ∈ f.support) : t ∈ f.terms :=
  List.mem_of_mem_filter h

lemma value_eq_support (f : LinearForm) (x : String → Int) :
    f.value x = f.constant + sumTerms x f.support := by
  rw [value, support, sumTerms_filter _ fun t _ h => by simpa using h]

/-! ## Operations -/

@[simp] lemma value_const (c : Int) (x : String → Int) : (const c).value x = c := Int.add_zero c

@[simp] lemma value_var (v : String) (x : String → Int) : (var v).value x = x v := by
  simp [value, var, terms, SortedMap.singleton, sumTerms]

lemma value_congr (h : ∀ v ∈ f.vars, x v = y v) : f.value x = f.value y := by
  rw [value, value, sumTerms_congr fun t ht => h t.1 (mem_vars.2 ⟨t.2, ht⟩)]

lemma neg_eq_ok : f.neg = .ok g ↔ (∀ a ∈ f.constant :: f.coeffs.values, Word.fits (-a)) ∧
    g = ⟨f.coeffs.mapWithKey fun _ a => -a, -f.constant⟩ := by
  unfold neg
  rw [← List.all_eq_true (p := fun a => Word.fits (-a))]
  split
  next hfits => rw [Except.ok.injEq, and_iff_right hfits, eq_comm]
  next hfits => simp [hfits]

lemma terms_neg (h : f.neg = .ok g) : g.terms = f.terms.map fun t => (t.1, t.2 * -1) := by
  obtain ⟨-, rfl⟩ := neg_eq_ok.1 h
  exact List.map_congr_left fun t _ => by rw [Int.mul_neg_one]

lemma value_neg (h : f.neg = .ok g) (x : String → Int) : g.value x = -f.value x := by
  have hconstant : g.constant = -f.constant := by
    obtain ⟨-, rfl⟩ := neg_eq_ok.1 h
    rfl
  rw [value, value, terms_neg h, sumTerms_map_mul, hconstant]
  ring

lemma vars_neg (h : f.neg = .ok g) : g.vars = f.vars := by
  change g.terms.map Prod.fst = f.terms.map Prod.fst
  rw [terms_neg h, List.map_map]
  rfl

lemma Trimmed.neg (hf : f.Trimmed) (h : f.neg = .ok g) : g.Trimmed := by
  intro t ht
  rw [terms_neg h] at ht
  obtain ⟨u, hu, rfl⟩ := List.mem_map.1 ht
  have := hf u hu
  dsimp only
  omega

section

variable (coeffs : SortedMap String Int) (c : Int)

lemma terms_trim : terms ⟨trim coeffs, c⟩ = coeffs.entries.filter fun t => t.2 != 0 := rfl

lemma trimmed_trim : Trimmed ⟨trim coeffs, c⟩ := by
  intro t ht
  rw [terms_trim] at ht
  simpa using (List.mem_filter.1 ht).2

lemma sumTerms_trim : sumTerms x (terms ⟨trim coeffs, c⟩) = sumTerms x coeffs.entries := by
  rw [terms_trim]
  exact sumTerms_filter _ fun t _ ht => by simpa using ht

end

lemma mem_vars_trim {coeffs : SortedMap String Int} {c : Int} (h : v ∈ vars ⟨trim coeffs, c⟩) :
    v ∈ coeffs.keys := by
  obtain ⟨a, ha⟩ := mem_vars.1 h
  rw [terms_trim] at ha
  exact List.mem_map.2 ⟨_, (List.mem_filter.1 ha).1, rfl⟩

variable {terms : List (String × Int)}

lemma foldlM_terms {m m' : SortedMap String Int}
    {step : SortedMap String Int → String × Int → Option (SortedMap String Int)}
    (hstep : ∀ m t, step m t = (Word.add? (m.getD t.1 0) t.2).map (m.insert t.1))
    (h : terms.foldlM step m = some m') :
    (∀ x, sumTerms x m'.entries = sumTerms x m.entries + sumTerms x terms) ∧
      ∀ v ∈ m'.keys, v ∈ m.keys ∨ v ∈ terms.map Prod.fst := by
  induction terms generalizing m with
  | nil =>
    cases h
    exact ⟨fun x => (Int.add_zero _).symm, fun v hv => .inl hv⟩
  | cons t terms ih =>
    obtain ⟨m₁, hm₁, h⟩ := bind_eq_some_iff.1 h
    rw [hstep] at hm₁
    obtain ⟨a, ha, rfl⟩ := map_eq_some_iff.1 hm₁
    obtain ⟨hsum, hkeys⟩ := ih h
    refine ⟨fun x => ?_, fun v hv => ?_⟩
    · have hplace : sumTerms x (m.insert t.1 a).entries =
          sumTerms x m.entries + (a - m.getD t.1 0) * x t.1 := sumTerms_place t.1 a m.entries
      rw [hsum, hplace, ← Word.add?_eq_some ha, sumTerms]
      ring
    · rcases hkeys v hv with hv | hv
      · obtain ⟨b, hb⟩ := mem_keys.1 hv
        rw [get?_insert] at hb
        split at hb
        next hvt => exact .inr (by simp [hvt])
        next => exact .inl (mem_keys.2 ⟨b, hb⟩)
      · exact .inr (List.mem_cons_of_mem _ hv)

lemma add?_spec (hadd : f.add? g = some h) : h.Trimmed ∧
    (∀ v ∈ h.vars, v ∈ f.vars ∨ v ∈ g.vars) ∧ ∀ x, h.value x = f.value x + g.value x := by
  obtain ⟨coeffs, hcoeffs, hadd⟩ := bind_eq_some_iff.1 hadd
  obtain ⟨c, hc, hadd⟩ := bind_eq_some_iff.1 hadd
  cases hadd
  obtain ⟨hsum, hkeys⟩ := foldlM_terms (fun m t => by
    dsimp only
    cases Word.add? (m.getD t.1 0) t.2 <;> rfl) hcoeffs
  refine ⟨trimmed_trim _ _, fun v hv => hkeys v (mem_vars_trim hv), fun x => ?_⟩
  have hterms : sumTerms x coeffs.entries = sumTerms x f.terms + sumTerms x g.terms := hsum x
  rw [value, sumTerms_trim, hterms, ← Word.add?_eq_some hc, value, value]
  ring

lemma scale?_spec (h : f.scale? k = some g) : g.Trimmed ∧ (∀ v ∈ g.vars, v ∈ f.vars) ∧
    ∀ x, g.value x = f.value x * k := by
  unfold scale? at h
  split at h
  · cases h
    refine ⟨trimmed_trim _ _, fun v hv => ?_, fun x => ?_⟩
    · have := mem_vars_trim hv
      simpa [keys, mapWithKey, vars] using this
    · have hterms : sumTerms x (f.coeffs.mapWithKey fun _ a => a * k).entries =
        sumTerms x f.terms * k :=
        sumTerms_map_mul k f.terms
      rw [value, sumTerms_trim, hterms, value]
      ring
  · cases h

lemma value_drop (f : LinearForm) (v : String) (x : String → Int) :
    f.value x = f.coeff v * x v + (f.drop v).value x := by
  have hterms : sumTerms x f.terms = f.coeff v * x v + sumTerms x (f.drop v).terms :=
    sumTerms_erase v f.coeffs.sorted
  rw [value, value, hterms]
  change _ = f.coeff v * x v + (f.constant + sumTerms x (f.drop v).terms)
  ring

lemma value_of_support_drop (h : (f.drop v).support = terms)
    (x : String → Int) : f.value x = f.coeff v * x v + sumTerms x terms + f.constant := by
  rw [value_drop f v, value_eq_support, h]
  change _ + (f.constant + _) = _
  ring

lemma value_update (h : f.coeff v = 0) (x : String → Int) (t : Int) :
    f.value (Function.update x v t) = f.value x := by
  rw [value_drop f v, value_drop f v, h, Int.zero_mul, Int.zero_mul]
  refine congrArg (0 + ·) (value_congr fun w hw => ?_)
  obtain ⟨a, ha⟩ := mem_vars.1 hw
  rw [Function.update_of_ne (mem_terms_drop.1 ha).2]

end LinearForm
end StaticAnalysis
