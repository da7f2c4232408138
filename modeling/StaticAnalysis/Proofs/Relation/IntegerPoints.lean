import Mathlib.Data.Finset.Lattice.Lemmas
import Mathlib.Data.Finset.Range
import StaticAnalysis.Proofs.Relation.TightClosure

/-!
# Integer points of tight matrices

In a tight matrix each bound on a difference is reached, and a difference without a bound can be as
large as one likes (`Tight.exists_point`).

The variables get their values one after the other.  Values that respect the bounds between them
leave an interval for the next variable, since two bounds on it through others add up to one between
those others (`Tight.exists_extension`).  To reach a difference the two variables come first.
-/

namespace StaticAnalysis

open List

lemma exists_int_between (lows highs : List Int) (h : ∀ l ∈ lows, ∀ u ∈ highs, l ≤ u) :
    ∃ t, (∀ l ∈ lows, l ≤ t) ∧ ∀ u ∈ highs, t ≤ u := by
  induction lows with
  | nil =>
    induction highs with
    | nil => exact ⟨0, by simp, by simp⟩
    | cons u highs ih =>
      obtain ⟨t, -, ht⟩ := ih (by simp)
      refine ⟨min u t, by simp, fun v hv => ?_⟩
      rcases mem_cons.1 hv with rfl | hv
      · exact min_le_left _ _
      · exact (min_le_right _ _).trans (ht v hv)
  | cons l lows ih =>
    obtain ⟨t, hlow, hhigh⟩ := ih fun l' hl' => h l' (mem_cons_of_mem l hl')
    refine ⟨max l t, fun l' hl' => ?_, fun u hu => max_le (h l mem_cons_self u hu) (hhigh u hu)⟩
    rcases mem_cons.1 hl' with rfl | hl'
    · exact le_max_left _ _
    · exact (hlow l' hl').trans (le_max_right _ _)

namespace Dbm

variable {n p i j : Nat} {m : Dbm} {S : Finset Nat} {v : Nat → Int} {x y t : Int}

/-- The quantities of numbered variables. -/
def signed (v : Nat → Int) (i : Nat) : Int := if i % 2 = 0 then v (i / 2) else -v (i / 2)

lemma signed_twin (v : Nat → Int) (i : Nat) : signed v (twin i) = -signed v i := by
  unfold signed
  rw [twin_div_two]
  unfold twin
  by_cases hi : i % 2 = 0
  · rw [if_pos hi, if_pos hi, if_neg (by omega)]
  · rw [if_neg hi, if_neg hi, if_pos (by omega), neg_neg]

/-- Give quantity `p` a value, through its variable. -/
def assign (v : Nat → Int) (p : Nat) (t : Int) : Nat → Int :=
  Function.update v (p / 2) (if p % 2 = 0 then t else -t)

lemma signed_assign_self (v : Nat → Int) (p : Nat) (t : Int) : signed (assign v p t) p = t := by
  unfold signed assign
  rw [Function.update_self]
  split
  · rfl
  · exact neg_neg t

lemma signed_assign_of_ne (h : i / 2 ≠ p / 2) : signed (assign v p t) i = signed v i := by
  unfold signed assign
  rw [Function.update_of_ne h]

/-- The bounds between the quantities of some variables are respected. -/
def HoldsOn (m : Dbm) (S : Finset Nat) (v : Nat → Int) : Prop :=
  ∀ ⦃i j x⦄, i / 2 ∈ S → j / 2 ∈ S → m.Within i j x → signed v j - signed v i ≤ x

lemma holdsOn_empty (m : Dbm) (v : Nat → Int) : m.HoldsOn ∅ v := fun _ _ _ h => absurd h (by simp)

/-- The lower bounds on quantity `p`, through the values of other quantities and through its twin.
The upper bounds are the negated lower bounds on its twin. -/
inductive Low (m : Dbm) (S : Finset Nat) (v : Nat → Int) (p : Nat) : Int → Prop
  | other {j : Nat} {x : Int} (hj : j / 2 ∈ S) (hx : m.Within p j x) : Low m S v p (signed v j - x)
  | self {x : Int} (hx : m.Within p (twin p) x) : Low m S v p (-(x / 2))

/-- A value that respects the lower bounds on a quantity and on its twin can be given to it. -/
lemma HoldsOn.insert (hm : Tight n m) (hv : m.HoldsOn S v) (hp : p / 2 ∉ S)
    (ht : ∀ l, m.Low S v p l → l ≤ t) (ht' : ∀ l, m.Low S v (twin p) l → l ≤ -t) :
    m.HoldsOn (insert (p / 2) S) (assign v p t) := by
  have hnew : ∀ {q}, q / 2 = p / 2 → ∀ {l}, m.Low S v q l → l ≤ signed (assign v p t) q := by
    intro q hq l hl
    rcases eq_or_eq_twin hq with rfl | rfl
    · rw [signed_assign_self]
      exact ht l hl
    · rw [signed_twin, signed_assign_self]
      exact ht' l hl
  have hold : ∀ {q}, q / 2 ∈ S → signed (assign v p t) q = signed v q :=
    fun hq => signed_assign_of_ne fun h => hp (h ▸ hq)
  intro i j x hi hj hx
  rw [Finset.mem_insert] at hi hj
  rcases hi with hi | hi
  · rcases hj with hj | hj
    · rcases eq_or_eq_twin (hj.trans hi.symm) with rfl | rfl
      · have := hm.nonneg hx
        omega
      · have := hnew hi (.self hx)
        rw [signed_twin]
        omega
    · have := hnew hi (.other hj hx)
      rw [hold hj]
      omega
  · rcases hj with hj | hj
    · -- The bound on the negated quantities is a lower bound on the twin of `j`.
      have := hnew (by rwa [twin_div_two]) (.other (by rwa [twin_div_two]) (hm.within hx))
      rw [signed_twin, signed_twin] at this
      rw [hold hi]
      omega
    · rw [hold hi, hold hj]
      exact hv hi hj hx

lemma Tight.low_other_add_self (hm : Tight n m) (hv : m.HoldsOn S v) (hj : j / 2 ∈ S)
    (hx : m.Within p j x) (hy : m.Within (twin p) p y) : signed v j - x - y / 2 ≤ 0 := by
  -- From the twin of `j` over both twins of `p` to `j`.
  have := hv (by rwa [twin_div_two]) hj (hm.triangle (hm.triangle (hm.within hx) hy) hx)
  rw [signed_twin] at this
  omega

variable {d l : Int}

lemma Tight.low_add_low_twin {k : Int} (hm : Tight n m) (hv : m.HoldsOn S v) (hk : m.Low S v p k)
    (hl : m.Low S v (twin p) l) : k + l ≤ 0 := by
  cases hk with
  | other hi hx =>
    cases hl with
    | other hj hy =>
      have hback := hm.within hy
      rw [twin_twin] at hback
      have := hv (by rwa [twin_div_two]) hi (hm.triangle hback hx)
      rw [signed_twin] at this
      omega
    | self hy =>
      rw [twin_twin] at hy
      have := hm.low_other_add_self hv hi hx hy
      omega
  | self hx =>
    cases hl with
    | other hj hy =>
      have := hm.low_other_add_self hv hj hy (by rwa [twin_twin])
      omega
    | self hy =>
      rw [twin_twin] at hy
      have := hm.nonneg (hm.halves hx hy)
      omega

/-- Finitely many of the lower bounds are enough. -/
lemma Square.exists_lows (hm : Square n m) (S : Finset Nat) (v : Nat → Int) (p : Nat) :
    ∃ lows : List Int, (∀ l ∈ lows, m.Low S v p l) ∧ ∀ l, m.Low S v p l → ∃ k ∈ lows, l ≤ k := by
  let others := (List.range n).filterMap fun j =>
    if j / 2 ∈ S then (m.bound p j).map (signed v j - ·) else none
  have hothers : ∀ l, l ∈ others ↔
      ∃ j < n, j / 2 ∈ S ∧ ∃ a, m.bound p j = some a ∧ signed v j - a = l := by
    intro l
    simp [others, mem_filterMap]
  let selves := (m.bound p (twin p)).toList.map fun a => -(a / 2)
  have hselves : ∀ l, l ∈ selves ↔ ∃ a, m.bound p (twin p) = some a ∧ -(a / 2) = l := by
    intro l
    simp [selves]
  refine ⟨others ++ selves, fun l hl => ?_, fun l hl => ?_⟩
  · rcases mem_append.1 hl with hl | hl
    · obtain ⟨j, -, hj, a, ha, rfl⟩ := (hothers l).1 hl
      exact .other hj (within_of_bound ha)
    · obtain ⟨a, ha, rfl⟩ := (hselves l).1 hl
      exact .self (within_of_bound ha)
  · cases hl with
    | @other j x hj hx =>
      obtain ⟨a, ha, hax⟩ := within_iff.1 hx
      have hmem := (hothers _).2 ⟨j, (hx.lt hm).2, hj, a, ha, rfl⟩
      exact ⟨_, mem_append_left _ hmem, by omega⟩
    | @self x hx =>
      obtain ⟨a, ha, hax⟩ := within_iff.1 hx
      exact ⟨_, mem_append_right _ ((hselves _).2 ⟨a, ha, rfl⟩), by omega⟩

/-- Values that respect the bounds extend to one more variable.  Its value may be asked to be at
least some integers that the upper bounds leave room for. -/
lemma Tight.exists_extension (hm : Tight n m) (hv : m.HoldsOn S v) (hp : p / 2 ∉ S)
    (extra : List Int) (hextra : ∀ e ∈ extra, ∀ l, m.Low S v (twin p) l → e + l ≤ 0) :
    ∃ t, (∀ e ∈ extra, e ≤ t) ∧ m.HoldsOn (insert (p / 2) S) (assign v p t) := by
  obtain ⟨lows, hlows, hlow⟩ := hm.square.exists_lows S v p
  obtain ⟨highs, hhighs, hhigh⟩ := hm.square.exists_lows S v (twin p)
  obtain ⟨t, ht, ht'⟩ := exists_int_between (lows ++ extra) (highs.map (- ·)) (by
    intro l hl u hu
    obtain ⟨k, hk, rfl⟩ := mem_map.1 hu
    rcases mem_append.1 hl with hl | hl
    · have := hm.low_add_low_twin hv (hlows l hl) (hhighs k hk)
      omega
    · have := hextra l hl k (hhighs k hk)
      omega)
  refine ⟨t, fun e he => ht e (mem_append_right _ he),
    hv.insert hm hp (fun l hl => ?_) fun l hl => ?_⟩
  · obtain ⟨k, hk, hlk⟩ := hlow l hl
    exact hlk.trans (ht k (mem_append_left _ hk))
  · obtain ⟨k, hk, hlk⟩ := hhigh l hl
    have := ht' (-k) (mem_map.2 ⟨k, hk, rfl⟩)
    omega

lemma Tight.exists_completion (hm : Tight n m) (hv : m.HoldsOn S v) :
    ∃ w, m.Holds (signed w) ∧ ∀ i, i / 2 ∈ S → signed w i = signed v i := by
  have hrun : ∀ r, ∃ w, m.HoldsOn (S ∪ Finset.range r) w ∧ ∀ i, i / 2 ∈ S →
      signed w i = signed v i := by
    intro r
    induction r with
    | zero => exact ⟨v, by simpa using hv, fun _ _ => rfl⟩
    | succ r ih =>
      obtain ⟨w, hw, hsame⟩ := ih
      have hrange : S ∪ Finset.range (r + 1) = insert r (S ∪ Finset.range r) := by
        rw [Finset.range_add_one, Finset.union_insert]
      by_cases hr : r ∈ S ∪ Finset.range r
      · refine ⟨w, ?_, hsame⟩
        rw [hrange, Finset.insert_eq_of_mem hr]
        exact hw
      · have hhalf : 2 * r / 2 = r := by omega
        obtain ⟨t, -, ht⟩ := hm.exists_extension hw (p := 2 * r) (by rwa [hhalf]) [] (by simp)
        rw [hhalf] at ht
        refine ⟨assign w (2 * r) t, hrange ▸ ht, fun i hi => ?_⟩
        rw [signed_assign_of_ne, hsame i hi]
        rw [hhalf]
        exact fun h => hr (h ▸ Finset.mem_union_left _ hi)
  obtain ⟨w, hw, hsame⟩ := hrun n
  refine ⟨w, holds_of_within fun i j x hx => ?_, hsame⟩
  obtain ⟨hi, hj⟩ := hx.lt hm.square
  exact hw (Finset.mem_union_right _ (Finset.mem_range.2 (by omega)))
    (Finset.mem_union_right _ (Finset.mem_range.2 (by omega))) hx

lemma low_empty_iff : m.Low ∅ v p l ↔ ∃ x, m.Within p (twin p) x ∧ -(x / 2) = l := by
  constructor
  · intro hl
    cases hl with
    | other hj => simp at hj
    | self hx => exact ⟨_, hx, rfl⟩
  · rintro ⟨x, hx, rfl⟩
    exact .self hx

lemma Tight.exists_point_twin (hm : Tight n m) (hd : ∀ x, m.Within i (twin i) x → d ≤ x) :
    ∃ v, m.Holds (signed v) ∧ d ≤ signed v (twin i) - signed v i := by
  obtain ⟨t, hlow, ht⟩ := hm.exists_extension (holdsOn_empty m 0) (p := twin i) (by simp)
    [(d + 1) / 2] (by
    intro e he
    rw [mem_singleton] at he
    subst he
    intro l hl
    obtain ⟨x, hx, rfl⟩ := low_empty_iff.1 hl
    rw [twin_twin] at hx
    have := hd _ (hm.halves hx (by rwa [twin_twin]))
    omega)
  obtain ⟨v, hv, hsame⟩ := hm.exists_completion ht
  have htwin : signed v (twin i) = t := by
    rw [hsame (twin i) (by simp), signed_assign_self]
  have hself : signed v (twin i) = -signed v i := signed_twin v i
  have := hlow _ (mem_singleton_self _)
  exact ⟨v, hv, by omega⟩

/-- The difference of two variables or negated variables can be as large as its bound admits. -/
lemma Tight.exists_point_of_ne (hm : Tight n m) (hij : i / 2 ≠ j / 2)
    (hd : ∀ x, m.Within i j x → d ≤ x) : ∃ v, m.Holds (signed v) ∧ d ≤ signed v j - signed v i := by
  -- Other upper bounds on `j` are the one on twice `j` and the one through the twin of `i`.
  let extra := (m.bound (twin j) j).toList.map (fun b => d - b / 2) ++
    (m.bound (twin i) j).toList.map (fun b => (d - b + 1) / 2)
  have hmem : ∀ e, e ∈ extra ↔ (∃ b, m.bound (twin j) j = some b ∧ d - b / 2 = e) ∨
      ∃ b, m.bound (twin i) j = some b ∧ (d - b + 1) / 2 = e := by
    intro e
    simp [extra]
  obtain ⟨t, hlow, ht⟩ := hm.exists_extension (holdsOn_empty m 0) (p := twin i) (by simp) extra (by
    intro e he l hl
    obtain ⟨x, hx, rfl⟩ := low_empty_iff.1 hl
    rw [twin_twin] at hx
    rcases (hmem e).1 he with ⟨b, hb, rfl⟩ | ⟨b, hb, rfl⟩
    · have := hd _ (hm.halves hx (within_of_bound hb))
      omega
    · have heven := hm.halves hx (j := twin i) (by rwa [twin_twin])
      have := hd _ (hm.triangle heven (within_of_bound hb))
      omega)
  have htwin : signed (assign 0 (twin i) t) (twin i) = t := signed_assign_self _ _ _
  have hself : signed (assign 0 (twin i) t) i = -t := by
    have := signed_twin (assign 0 (twin i) t) i
    omega
  obtain ⟨u, hroom, hu⟩ := hm.exists_extension ht (p := j)
    (by simpa [twin_div_two] using Ne.symm hij) [d - t] (by
      intro e he l hl
      rw [mem_singleton] at he
      subst he
      cases hl with
      | @other k x hk hx =>
        have hback := hm.within hx
        rw [twin_twin] at hback
        have hk : k / 2 = i / 2 := by simpa [twin_div_two] using hk
        rcases eq_or_eq_twin hk with rfl | rfl
        · obtain ⟨b, hb, hbx⟩ := within_iff.1 hback
          have := hlow _ ((hmem _).2 (.inr ⟨b, hb, rfl⟩))
          omega
        · rw [twin_twin] at hback
          have := hd x hback
          omega
      | @self x hx =>
        rw [twin_twin] at hx
        obtain ⟨b, hb, hbx⟩ := within_iff.1 hx
        have := hlow _ ((hmem _).2 (.inl ⟨b, hb, rfl⟩))
        omega)
  obtain ⟨v, hv, hsame⟩ := hm.exists_completion hu
  have hvj : signed v j = u := by rw [hsame j (by simp), signed_assign_self]
  have hvi : signed v i = -t := by
    rw [hsame i (by simp [twin_div_two]), signed_assign_of_ne hij, hself]
  have := hroom _ (mem_singleton_self _)
  exact ⟨v, hv, by omega⟩

lemma Tight.exists_point (hm : Tight n m) (hi : i < n) (hd : (m.bound i j).Admits d) :
    ∃ v, m.Holds (signed v) ∧ d ≤ signed v j - signed v i := by
  have hd : ∀ x, m.Within i j x → d ≤ x := Ceiling.admits_iff_le_some.1 hd
  by_cases hij : i / 2 = j / 2
  · rcases eq_or_eq_twin hij.symm with rfl | rfl
    · obtain ⟨v, hv, -⟩ := hm.exists_completion (holdsOn_empty m 0)
      have := hd 0 (within_of_bound (hm.diagonal j hi))
      exact ⟨v, hv, by omega⟩
    · exact hm.exists_point_twin hd
  · exact hm.exists_point_of_ne hij hd

end Dbm
end StaticAnalysis
