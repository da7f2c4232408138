import Mathlib.Data.Int.Interval
import StaticAnalysis.Proofs.Memory.Values
import StaticAnalysis.Proofs.Numeric.Chains

/-!
# Widening values comes to rest

A value that is widened again and again goes through phases that it does not leave: once it
describes something it does so for good, and then the top value, an address, an integer and an array
each stay what they are unless they become an address or the top value.  Within a phase the parts
come to rest, the segments of an array by induction on the nesting depth, as a widened array is
split at one place for good or not split at all.
-/

namespace StaticAnalysis

open Chain Fault StaticAnalysis.Interval List Segmented AddrSet

open Filter

lemma AddrSet.eventually_le {T : Set Target} (hT : T.Finite) {s : ℕ → AddrSet}
    (hs : ∀ n, (s n).Within T) (h : ∀ n, (s n).le (s (n + 1))) :
    ∀ᶠ n in atTop, (s (n + 1)).le (s n) := by
  have hany : ∀ n, s n = .any → s (n + 1) = .any := by
    intro n hn
    have hle := h n
    rw [hn] at hle
    cases hs' : s (n + 1) with
    | any => rfl
    | of targets =>
      rw [hs'] at hle
      cases hle
  rcases eventually_or_never hany with ⟨N, hN⟩ | hnever
  · exact eventually_of_tail N (.of_forall fun n => hN n ▸ le_any _)
  · have hof : ∀ n, ∃ targets, s n = .of targets := fun n => by
      cases hn : s n with
      | any => exact absurd hn (hnever n)
      | of targets => exact ⟨targets, rfl⟩
    choose t ht using hof
    have hle : ∀ n m, (s n).le (s m) = true ↔ {x | x ∈ t n} ⊆ {x | x ∈ t m} := by
      intro n m
      rw [ht, ht]
      exact SortedSet.subset_iff
    refine (eventually_subset hT (x := fun n => {x | x ∈ t n}) (fun n x hx => ?_)
      fun n => (hle n (n + 1)).1 (h n)).mono fun n hn => (hle (n + 1) n).2 hn
    have hwithin := hs n
    rw [ht] at hwithin
    exact hwithin x hx

/-! ## What is read from one segment -/

namespace Segmented

variable {α : Type} {bottom r : α} {join : α → α → Except Fault α} {a : Segmented α}
  {range all : Interval} {i k : Int} {left mid right v : α}

lemma meets_iff {p : Interval} :
    (!(p.meet (range.meet all)).isEmpty) ↔
      ∃ j, p.contains j ∧ range.contains j ∧ all.contains j := by
  rw [Bool.not_eq_true']
  refine ⟨fun h => ?_, fun ⟨j, hp, hr, ha⟩ => isEmpty_of_contains (n := j) ?_⟩
  · obtain ⟨j, hj⟩ := Interval.exists_contains_meet h
    rw [contains_meet, contains_meet] at hj
    exact ⟨j, hj⟩
  · rw [contains_meet, contains_meet]
    exact ⟨hp, hr, ha⟩

lemma read_whole (ha : a.layout = .whole v) (hi : a.HasIndex i) (hrange : range.contains i)
    (h : a.read bottom join range = .ok r) : join bottom v = .ok r := by
  obtain ⟨all, segs, hall, hsegs, h⟩ := read_segments h
  unfold segments at hsegs
  rw [hall, ok_bind, ha] at hsegs
  cases hsegs
  have hin := (contains_indices hall).2 hi
  rw [filter_cons_of_pos (by exact meets_iff.2 ⟨i, hin, hrange, hin⟩)] at h
  obtain ⟨r', hr', h⟩ := bind_eq_ok.1 h
  cases h
  exact hr'

/-- Indices on one side of the split of an array are read from the segment on that side. -/
lemma read_split (ha : a.layout = .split k left mid right) (hi : a.HasIndex i)
    (hrange : range.contains i) (h : a.read bottom join range = .ok r) :
    ((∀ j, range.contains j → j < k) → join bottom left = .ok r) ∧
      ((∀ j, range.contains j → k < j) → join bottom right = .ok r) := by
  obtain ⟨all, segs, hall, hsegs, h⟩ := read_segments h
  unfold segments at hsegs
  rw [hall, ok_bind, ha] at hsegs
  obtain ⟨low, hlow, hsegs⟩ := bind_eq_ok.1 hsegs
  obtain ⟨high, hhigh, hsegs⟩ := bind_eq_ok.1 hsegs
  cases hsegs
  have hmeets : ∀ p : Interval, p.contains i = true →
      (!((all.meet p).meet (range.meet all)).isEmpty) = true := fun p hp =>
    meets_iff.2 ⟨i, contains_meet.2 ⟨(contains_indices hall).2 hi, hp⟩, hrange,
      (contains_indices hall).2 hi⟩
  have hmisses : ∀ p : Interval, (∀ j, range.contains j = true → ¬ p.contains j = true) →
      ¬ (!((all.meet p).meet (range.meet all)).isEmpty) = true := by
    intro p hp hmeets
    obtain ⟨j, hj, hjr, -⟩ := meets_iff.1 hmeets
    exact hp j hjr (contains_meet.1 hj).2
  have hone : ∀ p : Interval × α, [p].foldlM (fun acc p => join acc p.2) bottom = .ok r →
      join bottom p.2 = .ok r := by
    intro p hp
    obtain ⟨r', hr', hp⟩ := bind_eq_ok.1 hp
    cases hp
    exact hr'
  refine ⟨fun hside => ?_, fun hside => ?_⟩
  · rw [filter_cons_of_pos, filter_cons_of_neg, filter_cons_of_neg] at h
    · exact hone _ h
    · exact hmisses _ fun j hj hp => (hside j hj).not_gt ((contains_above hhigh).1 hp)
    · exact hmisses _ fun j hj hp => (hside j hj).ne (contains_constant.1 hp)
    · exact hmeets _ ((contains_below hlow).2 (hside i hrange))
  · rw [filter_cons_of_neg, filter_cons_of_neg, filter_cons_of_pos] at h
    · exact hone _ h
    · exact hmeets _ ((contains_above hhigh).2 (hside i hrange))
    · exact hmisses _ fun j hj hp => (hside j hj).ne' (contains_constant.1 hp)
    · exact hmisses _ fun j hj hp => (hside j hj).not_gt ((contains_below hlow).1 hp)

/-! ## Arrays split at one place -/

/-- Where an array is split. -/
def point? (a : Segmented α) : Option Int :=
  match a.layout with
  | .whole _ => none
  | .split k .. => some k

lemma sameSplit?_iff {b : Segmented α} : a.sameSplit? b = some true ↔ a.point? = b.point? := by
  obtain ⟨n, _ | _⟩ := a <;> obtain ⟨m, _ | _⟩ := b <;> simp [sameSplit?, point?]

lemma combine_point? {f : α → α → Except Fault α} {b c : Segmented α}
    (hsame : a.point? = b.point?) (h : combine bottom join f a b = .ok c) :
    c.point? = a.point? ∧ ∀ i, a.HasIndex i →
      f (a.valueAt i) (b.valueAt i) = .ok (c.valueAt i) ∨
        ∃ x y range, join bottom (a.valueAt i) = .ok x ∧ b.read bottom join range = .ok y ∧
          f x y = .ok (c.valueAt i) := by
  rcases (combine_cases h).2 with ⟨v, w, u, ha, hb, hu, hc⟩ |
    ⟨k, low, high, left, mid, right, hk, hlow, hhigh, ⟨x, y, hx, hy, hleft⟩, hmid,
      ⟨x', y', hx', hy', hright⟩, hc⟩
  · refine ⟨by simp only [point?, ha, hc], fun i _ => .inl ?_⟩
    simp only [valueAt, ha, hb, hc]
    exact hu
  · obtain ⟨l, m, r, ha⟩ : ∃ l m r, a.layout = .split k l m r := by
      obtain ⟨_, _ | _⟩ := a <;> obtain ⟨_, _ | _⟩ := b <;> simp_all [splits, point?]
    refine ⟨by simp only [point?, ha, hc], fun i hi => ?_⟩
    have hvalue : ∀ {d : Segmented α} {l m r}, d.layout = .split k l m r →
        d.valueAt i = if i < k then l else if i = k then m else r := by
      intro d l m r hd
      simp only [valueAt, hd]
    rw [hvalue ha, hvalue hc]
    rcases lt_trichotomy i k with hik | rfl | hik
    · simp only [if_pos hik]
      refine .inr ⟨x, y, low, ?_, hy, hleft⟩
      exact (read_split ha hi ((contains_below hlow).2 hik) hx).1 fun j => (contains_below hlow).1
    · rw [hvalue ha] at hmid
      simp only [lt_irrefl, if_false, if_true] at hmid ⊢
      exact .inl hmid
    · simp only [if_neg hik.not_gt, if_neg hik.ne']
      refine .inr ⟨x', y', high, ?_, hy', hright⟩
      exact (read_split ha hi ((contains_above hhigh).2 hik) hx').2 fun j =>
        (contains_above hhigh).1

/-- Finitely many indices stand for all those of an array and of the arrays split like it. -/
lemma exists_representatives (a : Segmented α) : ∃ S : Set Int, S.Finite ∧ ∀ i, a.HasIndex i →
    ∃ j ∈ S, a.HasIndex j ∧ ∀ c : Segmented α, c.point? = a.point? → c.valueAt i = c.valueAt j := by
  generalize hp : a.point?.getD 0 = p
  refine ⟨Set.Icc 0 (max 0 (p + 1)), Set.finite_Icc _ _, fun i hi => ?_⟩
  have hi0 := hi.1
  refine ⟨max 0 (min i (p + 1)), ⟨by omega, by omega⟩, ⟨by omega, fun m hm => ?_⟩, ?_⟩
  · have := hi.2 m hm
    omega
  rintro ⟨m, _ | ⟨k, left, mid, right⟩⟩ hc
  · rfl
  · obtain rfl : k = p := by rw [← hp, ← hc]; rfl
    have hlt : i < k ↔ max 0 (min i (k + 1)) < k := by omega
    have heq : i = k ↔ max 0 (min i (k + 1)) = k := by omega
    simp only [valueAt, hlt, heq]

end Segmented

namespace Value

variable {T : Set Target} {σ : List (Option Int)} {v w u r : Value} {a b c : ArrayVal} {i : Int}

lemma Shaped.mono {T' : Set Target} (h : Shaped T σ v) (hT : T ⊆ T') : Shaped T' σ v := by
  induction h with
  | bottom => exact .bottom
  | int h => exact .int h
  | @addr σ a h =>
    refine .addr ?_
    cases a with
    | any => trivial
    | of targets => exact fun t ht => hT (h t ht)
  | array hlength _ ih => exact .array hlength ih
  | top => exact .top

/-! ## One step -/

/-- The value stays as it is, or is widened with one of its shape. -/
def WidensTo (T : Set Target) (σ : List (Option Int)) (v u : Value) : Prop :=
  u = v ∨ ∃ n w, Shaped T σ w ∧ widenWith n v w = .ok u

lemma WidensTo.below (hT : none ∈ T) (hv : Shaped T σ v) (h : WidensTo T σ v u) : Below v u := by
  rcases h with rfl | ⟨n, w, hw, h⟩
  · exact .refl _
  · exact (bounds_widenWith hT n σ hv hw h).2.1

/-- The array stays as it is, or is widened with one of its shape. -/
def ArrayWidensTo (T : Set Target) (σ : List (Option Int)) (a c : ArrayVal) : Prop :=
  c = a ∨ ∃ n b, Shaped T σ (.array b) ∧
    Segmented.widen .bottom arrayIsBottom join (widenWith n) a b = .ok c

/-- What becomes of a value that describes something: it is widened among values of its kind, or
turns into an address or the top value. -/
inductive Widened (T : Set Target) (σ : List (Option Int)) : Value → Value → Prop
  | same {v : Value} : Widened T σ v v
  | top {v : Value} : Widened T σ v .top
  | addr {s t : AddrSet} (h : s.le t) : Widened T σ (.addr s) (.addr t)
  | null {x : IntVal} {s : AddrSet} : Widened T σ (.int x) (.addr s)
  | int (x y : IntVal) : Widened T σ (.int x) (.int (x.widen y))
  | array {a c : ArrayVal} (h : ArrayWidensTo T σ a c) : Widened T σ (.array a) (.array c)

lemma WidensTo.widened (hv : ¬ v.Void) (h : WidensTo T σ v u) : Widened T σ v u := by
  rcases h with rfl | ⟨n, w, hw, h⟩
  · exact .same
  replace h := ((widenWith_cases h).resolve_left fun hvoid => hv hvoid.1).2
  have hjoin : v.join w = .ok u → (∀ x y, v = .int x → w ≠ .int y) →
      (∀ a b, v = .array a → w ≠ .array b) → Widened T σ v u := by
    intro h hint harray
    rcases joinWith_cases h with ⟨hvoid, -⟩ | ⟨-, -, rfl⟩ | ⟨-, -, h⟩
    · exact absurd hvoid hv
    · exact .same
    cases joinsTo_of_joinKinds h with
    | top => exact .top
    | int => exact absurd rfl (hint _ _ rfl)
    | array => exact absurd rfl (harray _ _ rfl)
    | addr x y => exact .addr (le_join_left x y)
    | null => exact .null
    | orNull x => exact .addr (le_join_left x _)
  cases v <;> cases w
  case int.int x y =>
    cases h
    exact .int x y
  case array.array a b =>
    cases n with
    | zero => cases h; exact .top
    | succ n =>
      obtain ⟨c, hc, h⟩ := bind_eq_ok.1 h
      cases h
      exact .array (.inr ⟨n, b, hw, hc⟩)
  all_goals exact hjoin h (by simp) (by simp)

/-! ## Arrays -/

lemma ArrayWidensTo.point? (ha : ¬ (array a).Void) (h : ArrayWidensTo T σ a c) :
    c.point? = a.point? ∨ c.point? = none := by
  rcases h with rfl | ⟨n, b, -, h⟩
  · exact .inl rfl
  rcases Segmented.widen_cases h with ⟨hsame, h⟩ | ⟨x, y, z, u, -, -, -, -, rfl⟩
  · have hsame := hsame.resolve_right fun hbottom => ha (void_of_isBottom hbottom)
    exact .inl (combine_point? (sameSplit?_iff.1 hsame) h).1
  · exact .inr rfl

lemma ArrayWidensTo.valueAt {l : Option Int} (hT : none ∈ T) (ha : ¬ (array a).Void)
    (has : Shaped T (l :: σ) (.array a)) (h : ArrayWidensTo T (l :: σ) a c)
    (hsame : c.point? = a.point?) (hi : a.HasIndex i) :
    WidensTo T σ (a.valueAt i) (c.valueAt i) := by
  rcases h with rfl | ⟨n, b, hb, h⟩
  · exact .inl rfl
  obtain _ | _ | _ | ⟨-, has⟩ := has
  obtain _ | _ | _ | ⟨-, hb⟩ := hb
  have hjoin := bounds_join hT σ
  rcases Segmented.widen_cases h with ⟨hab, h⟩ | ⟨x, y, z, u, hx, hy, hz, hu, rfl⟩
  · have hab := hab.resolve_right fun hbottom => ha (void_of_isBottom hbottom)
    rcases (combine_point? (sameSplit?_iff.1 hab) h).2 i hi with hat | ⟨x, y, range, hx, hy, hat⟩
    · exact .inr ⟨n, _, hb i, hat⟩
    · rw [eq_of_join_bottom hx] at hat
      exact .inr ⟨n, y, (read_spec hjoin hb hy).1, hat⟩
  · obtain ⟨v, hv⟩ : ∃ v, a.layout = .whole v := by
      obtain ⟨_, v | _⟩ := a
      exacts [⟨v, rfl⟩, by cases hsame]
    have hxv := eq_of_join_bottom (read_whole hv hi contains_top hx)
    have hvalue : a.valueAt i = x := by simp only [Segmented.valueAt, hv, hxv]
    rw [hvalue]
    exact .inr ⟨n, z, (hjoin (read_spec hjoin has hx).1 (read_spec hjoin hb hy).1 hz).1, hu⟩

/-- Values of a shape that are widened again and again come to rest. -/
def Rests (T : Set Target) (σ : List (Option Int)) : Prop :=
  ∀ ⦃v : ℕ → Value⦄, (∀ n, Shaped T σ (v n)) → (∀ n, WidensTo T σ (v n) (v (n + 1))) →
    ∀ᶠ n in atTop, Below (v (n + 1)) (v n)

section Arrays

variable (hT : none ∈ T) {l : Option Int} {a : ℕ → ArrayVal} (ih : Rests T σ)
  (hshaped : ∀ n, Shaped T (l :: σ) (.array (a n))) (hvoid : ∀ n, ¬ (array (a n)).Void)
  (h : ∀ n, ArrayWidensTo T (l :: σ) (a n) (a (n + 1)))
include hT ih hshaped hvoid h

lemma eventually_below_of_point? (hsame : ∀ n, (a (n + 1)).point? = (a n).point?) :
    ∀ᶠ n in atTop, Below (.array (a (n + 1))) (.array (a n)) := by
  have hlength : ∀ n, (a n).length = l := fun n => by
    obtain _ | _ | _ | ⟨hl, -⟩ := hshaped n
    exact hl
  have hindex : ∀ n i, (a 0).HasIndex i ↔ (a n).HasIndex i := fun n i => by
    unfold Segmented.HasIndex
    rw [hlength, hlength]
  have hpoint : ∀ n, (a n).point? = (a 0).point? := by
    intro n
    induction n with
    | zero => rfl
    | succ n ihn => exact (hsame n).trans ihn
  obtain ⟨S, hS, hrep⟩ := exists_representatives (a 0)
  have hrest : ∀ᶠ n in atTop, ∀ j ∈ S, (a 0).HasIndex j →
      Below ((a (n + 1)).valueAt j) ((a n).valueAt j) := by
    refine (eventually_all_finite hS).2 fun j _ => eventually_imp_distrib_left.2 fun hj => ?_
    refine ih (fun n => ?_) fun n => (h n).valueAt hT (hvoid n) (hshaped n) (hsame n)
      ((hindex n j).1 hj)
    obtain _ | _ | _ | ⟨-, hat⟩ := hshaped n
    exact hat j
  refine hrest.mono fun n hn => .array (.inr ((hlength _).trans (hlength _).symm)) fun i hi => ?_
  obtain ⟨j, hjS, hj, heq⟩ := hrep i ((hindex (n + 1) i).2 hi)
  rw [heq _ (hpoint (n + 1)), heq _ (hpoint n)]
  exact hn j hjS hj

lemma eventually_below_array : ∀ᶠ n in atTop, Below (.array (a (n + 1))) (.array (a n)) := by
  -- An array that is not split stays so, and otherwise the split never moves.
  obtain ⟨N, hN⟩ := eventually_atTop.1 (eventually_eq_of_absorbing (x := fun n => (a n).point?) none
    fun n => (h n).point? (hvoid n))
  exact eventually_of_tail N (eventually_below_of_point? hT ih (fun n => hshaped (N + n))
    (fun n => hvoid (N + n)) (fun n => h (N + n)) fun n => hN (N + n) (Nat.le_add_right N n))

end Arrays

/-! ## Values -/

section Kinds

lemma Widened.of_top (h : Widened T σ .top w) : w = .top := by
  cases h <;> rfl

lemma Widened.of_addr {s : AddrSet} (h : Widened T σ (.addr s) w) (hw : w ≠ .top) :
    ∃ t, w = .addr t ∧ s.le t := by
  cases h with
  | same => exact ⟨s, rfl, le_self s⟩
  | top => exact absurd rfl hw
  | addr h => exact ⟨_, rfl, h⟩

lemma Widened.of_int {x : IntVal} (h : Widened T σ (.int x) w) (hw : w ≠ .top)
    (haddr : ¬ ∃ s, w = .addr s) (hx : ¬ (Value.int x).Void) :
    ∃ y, w = .int y ∧ ∃ z, y = x.widen z := by
  cases h with
  | same => exact ⟨x, rfl, .bottom, by simp [IntVal.widen,
    Bool.eq_false_iff.2 fun hb => hx (.int hb)]⟩
  | top => exact absurd rfl hw
  | null => exact absurd ⟨_, rfl⟩ haddr
  | int x z => exact ⟨_, rfl, z, rfl⟩

lemma Widened.of_array (h : Widened T σ (.array a) w) (hw : w ≠ .top) :
    ∃ c, w = .array c ∧ ArrayWidensTo T σ a c := by
  cases h with
  | same => exact ⟨a, rfl, .inl rfl⟩
  | top => exact absurd rfl hw
  | array h => exact ⟨_, rfl, h⟩

variable {v : ℕ → Value} (hT : none ∈ T) (hv : ∀ n, Shaped T σ (v n))
  (h : ∀ n, Widened T σ (v n) (v (n + 1))) (hvoid : ∀ n, ¬ (v n).Void)
  (ih : ∀ l τ, σ = l :: τ → Rests T τ)
include hT hv h hvoid ih

lemma eventually_below_kind (htop : ∀ n, v n ≠ .top) (haddr : ∀ n, ¬ ∃ s, v n = .addr s) :
    ∀ᶠ n in atTop, Below (v (n + 1)) (v n) := by
  cases hzero : v 0 with
  | bottom => exact absurd (hzero ▸ Void.bottom) (hvoid 0)
  | top => exact absurd hzero (htop 0)
  | addr s => exact absurd ⟨s, hzero⟩ (haddr 0)
  | int x =>
    obtain ⟨x, hx, hwiden⟩ := exists_contents (fun _ _ => Value.int.inj) ⟨x, hzero⟩ fun n x hx =>
      (hx ▸ h n).of_int (htop _) (haddr _) (hx ▸ hvoid n)
    simp only [hx] at hvoid ⊢
    exact (IntVal.eventually_widen_le (fun n => Bool.eq_false_iff.2 fun hb => hvoid n (.int hb))
      hwiden).mono fun n => .int
  | array a =>
    obtain ⟨a, ha, hwiden⟩ := exists_contents (fun _ _ => Value.array.inj) ⟨a, hzero⟩ fun n a ha =>
      (ha ▸ h n).of_array (htop _)
    simp only [ha] at hv hvoid ⊢
    cases σ with
    | nil => cases hv 0
    | cons l τ => exact eventually_below_array hT (ih l τ rfl) hv hvoid hwiden

lemma eventually_below_of_not_void (hfinite : T.Finite) :
    ∀ᶠ n in atTop, Below (v (n + 1)) (v n) := by
  rcases eventually_or_never (Q := fun n => v n = .top) (fun n hn => (hn ▸ h n).of_top)
    with ⟨N, hN⟩ | htop
  · exact eventually_of_tail N (.of_forall fun n => hN n ▸ .top)
  have hstep : ∀ n s, v n = .addr s → ∃ t, v (n + 1) = .addr t ∧ s.le t = true :=
    fun n s hs => (hs ▸ h n).of_addr (htop _)
  rcases eventually_or_never (Q := fun n => ∃ s, v n = .addr s)
    (fun n ⟨s, hs⟩ => (hstep n s hs).imp fun _ => And.left) with ⟨N, hN⟩ | haddr
  · obtain ⟨s, hs, hle⟩ := exists_contents (x := fun n => v (N + n)) (fun _ _ => Value.addr.inj)
      (hN 0) fun n => hstep (N + n)
    have hwithin : ∀ n, (s n).Within T := fun n => by
      obtain _ | _ | hw := hs n ▸ hv (N + n)
      exact hw
    refine eventually_of_tail N ((eventually_le hfinite hwithin hle).mono fun n hn => ?_)
    rw [hs n, show v (N + n + 1) = _ from hs (n + 1)]
    exact .addr hn
  · exact eventually_below_kind hT hv h hvoid ih htop haddr

end Kinds

lemma rests (hfinite : T.Finite) (hT : none ∈ T) (σ : List (Option Int)) : Rests T σ := by
  have hstep : ∀ σ, (∀ l τ, σ = l :: τ → Rests T τ) → Rests T σ := by
    intro σ ih v hv h
    have hkept : ∀ n, ¬ (v n).Void → ¬ (v (n + 1)).Void := fun n hn hvoid =>
      hn (((h n).below hT (hv n)).void_of_void hvoid)
    rcases eventually_or_never hkept with ⟨N, hN⟩ | hnever
    · exact eventually_of_tail N (eventually_below_of_not_void hT (fun n => hv (N + n))
        (fun n => (h (N + n)).widened (hN n)) hN ih hfinite)
    · exact .of_forall fun n => .void (not_not.1 (hnever (n + 1)))
  induction σ with
  | nil => exact hstep [] fun _ _ heq => by cases heq
  | cons l σ ih =>
    refine hstep _ fun _ _ heq => ?_
    cases heq
    exact ih

end Value
end StaticAnalysis
