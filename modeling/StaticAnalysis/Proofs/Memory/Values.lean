import StaticAnalysis.Proofs.Memory.Scalars
import StaticAnalysis.Proofs.Memory.Segments

/-!
# Order of values

`Value.Below` is the order of values, said without computing: an array is below another if its
elements are below the other's elements at every index.  Comparison never answers no where `Below`
holds (`eq_true_of_below`).

Values of one cell have a common shape: integers are tight, and arrays of one nesting depth have one
length.  On such values joins and widenings are upper bounds, whatever the splits of their arrays
(`bounds_join`, `bounds_widen`).

`UpperBound f` is what the layers above need of an operation on scalar values; joining states,
summaries and shared values is monotone for every such `f`.
-/

namespace StaticAnalysis

open AddrSet Fault IntVal Segmented SortedSet

namespace AddrSet

/-- All targets are in `T`, if they are known. -/
def Within (T : Set Target) : AddrSet → Prop
  | .any => True
  | .of targets => ∀ t ∈ targets, t ∈ T

lemma within_join {T : Set Target} {a b : AddrSet} (ha : a.Within T) (hb : b.Within T) :
    (a.join b).Within T := by
  cases a <;> cases b <;> try trivial
  intro t ht
  exact (mem_union.1 ht).elim (ha t) (hb t)

lemma within_null {T : Set Target} (hT : none ∈ T) : null.Within T := by
  intro t ht
  rwa [mem_singleton.1 ht]

lemma join_comm (a b : AddrSet) : a.join b = b.join a := by
  cases a <;> cases b <;> try rfl
  exact congrArg AddrSet.of (ext_mem fun t => by
    rw [mem_union, mem_union, or_comm])

end AddrSet

namespace Value

variable {v w u r : Value} {a b c : ArrayVal}

/-! ## Values by their elements -/

lemma depth_valueAt_lt (a : ArrayVal) (i : Int) : (a.valueAt i).depth < (array a).depth := by
  obtain ⟨n, _ | _⟩ := a
  · simp [Segmented.valueAt, depth]
  · simp only [Segmented.valueAt, depth]
    split_ifs <;> omega

@[elab_as_elim]
lemma byElements {P : Value → Prop} (bottom : P .bottom) (int : ∀ a, P (.int a))
    (addr : ∀ a, P (.addr a)) (array : ∀ a : ArrayVal, (∀ i, P (a.valueAt i)) → P (.array a))
    (top : P .top) (v : Value) : P v := by
  induction hn : v.depth using Nat.strongRecOn generalizing v with
  | ind n ih =>
    cases v with
    | bottom => exact bottom
    | int a => exact int a
    | addr a => exact addr a
    | array a => exact array a fun i => ih _ (hn ▸ depth_valueAt_lt a i) _ rfl
    | top => exact top

/-- No concrete value is described; an array is void if it is void at every index. -/
inductive Void : Value → Prop
  | bottom : Void .bottom
  | int {a : IntVal} (h : a.isBottom = true) : Void (.int a)
  | addr {a : AddrSet} (h : a.isBottom = true) : Void (.addr a)
  | array {a : ArrayVal} (h : ∀ i, a.HasIndex i → Void (a.valueAt i)) : Void (.array a)

lemma isBottom_array (a : ArrayVal) : isBottom (.array a) = (a.map isBottom).all := by
  obtain ⟨n, _ | _⟩ := a <;> rfl

lemma isBottom_iff {r : Bool} (h : v.isBottom = .ok r) : r ↔ v.Void := by
  induction v using byElements generalizing r with
  | bottom => cases h; simp [Void.bottom]
  | int a =>
    cases h
    exact ⟨.int, fun h => by cases h; assumption⟩
  | addr a =>
    cases h
    exact ⟨.addr, fun h => by cases h; assumption⟩
  | array a ih =>
    rw [isBottom_array] at h
    obtain ⟨htrue, hfalse⟩ := all_spec h
    simp only [valueAt_map, hasIndex_map] at htrue hfalse
    refine ⟨fun hr => .array fun i hi => (ih i (htrue hr i hi)).1 rfl, ?_⟩
    rintro (_ | _ | _ | hvoid)
    by_contra hr
    obtain ⟨i, hi, hbottom⟩ := hfalse (by simpa using hr)
    exact absurd ((ih i hbottom).2 (hvoid i hi)) (by simp)
  | top =>
    cases h
    exact ⟨fun h => absurd h (by simp), fun h => by cases h⟩

lemma void_of_isBottom (h : v.isBottom = .ok true) : v.Void := (isBottom_iff h).1 rfl

lemma not_void_of_isBottom (h : v.isBottom = .ok false) : ¬ v.Void := fun hv => by
  simpa using (isBottom_iff h).2 hv

/-! ## Order -/

inductive Below : Value → Value → Prop
  | void {v w : Value} (h : v.Void) : Below v w
  | top {v : Value} : Below v .top
  | int {a b : IntVal} (h : a.le b = true) : Below (.int a) (.int b)
  | addr {a b : AddrSet} (h : a.le b = true) : Below (.addr a) (.addr b)
  | null {a : IntVal} {b : AddrSet} (ha : a.constant? = some 0) (hb : b.mayBeNull = true) :
    Below (.int a) (.addr b)
  | array {a b : ArrayVal} (hlength : b.length = none ∨ a.length = b.length)
    (h : ∀ i, a.HasIndex i → Below (a.valueAt i) (b.valueAt i)) : Below (.array a) (.array b)

lemma Below.refl (v : Value) : Below v v := by
  induction v using byElements with
  | bottom => exact .void .bottom
  | int a => exact .int (le_self a)
  | addr a => exact .addr (le_self a)
  | array a ih => exact .array (.inr rfl) fun i _ => ih i
  | top => exact .top

lemma hasIndex_of_length {i : Int} (hlength : b.length = none ∨ a.length = b.length)
    (hi : a.HasIndex i) : b.HasIndex i := by
  refine ⟨hi.1, fun n hn => hi.2 n ?_⟩
  rcases hlength with hnone | heq
  · rw [hnone] at hn
    cases hn
  · rw [heq, hn]

lemma Below.void_of_void (h : Below v w) (hw : w.Void) : v.Void := by
  induction h with
  | void h => exact h
  | top => cases hw
  | int h =>
    cases hw with
    | int hb => exact .int (isBottom_of_le h hb)
  | addr h =>
    cases hw with
    | addr hb => exact .addr (isBottom_of_le h hb)
  | null ha hb =>
    cases hw with
    | addr hb' => simp [isBottom_of_mayBeNull hb] at hb'
  | array hlength h ih =>
    cases hw with
    | array hb => exact .array fun i hi => ih i hi (hb i (hasIndex_of_length hlength hi))

/-- Comparison does not answer no where one value is below another. -/
lemma eq_true_of_below_with (h : Below v w) {n : Nat} (hn : v.depth ≤ n) {r : Bool}
    (hle : leWith n v w = .ok r) : r := by
  induction h generalizing n r with
    (unfold leWith at hle; obtain ⟨empty, hempty, hle⟩ := bind_eq_ok.1 hle
     cases empty; swap; · cases hle; rfl)
  | void hv => exact absurd hv (not_void_of_isBottom hempty)
  | @top v => cases v <;> cases hle <;> rfl
  | int h | addr h =>
    cases hle
    exact h
  | null ha hb =>
    cases hle
    simp [ha, hb]
  | @array a b hlength h ih =>
    obtain ⟨m, rfl⟩ : ∃ m, n = m + 1 :=
      ⟨n - 1, by have := depth_valueAt_lt a 0; omega⟩
    change Segmented.le arrayIsBottom (leWith m) a b = .ok r at hle
    have htest : (b.length.isSome && a.length != b.length) = false := by
      rcases hlength with hnone | heq <;> simp_all
    unfold Segmented.le at hle
    rw [htest] at hle
    obtain ⟨regions, hregions, hle⟩ := bind_eq_ok.1 hle
    by_contra hr
    rw [Bool.not_eq_true] at hr
    subst hr
    obtain ⟨i, hi, hfalse⟩ := exists_of_allM_false hle
    have hdepth : (a.valueAt i).depth ≤ m := by
      have := depth_valueAt_lt a i
      omega
    have := ih i (hasIndex_of_mem_regions hregions hi) hdepth hfalse
    simp at this

lemma eq_true_of_below (h : Below v w) {r : Bool} (hle : v.le w = .ok r) : r :=
  eq_true_of_below_with h (le_max_left _ _) hle

/-! ## Shapes -/

/-- Integers are tight, targets are in `T`, and the arrays of each nesting depth have the given
length. -/
inductive Shaped (T : Set Target) : List (Option Int) → Value → Prop
  | bottom {σ} : Shaped T σ .bottom
  | int {σ a} (h : IntVal.Tight a) : Shaped T σ (.int a)
  | addr {σ a} (h : AddrSet.Within T a) : Shaped T σ (.addr a)
  | array {σ n} {a : ArrayVal} (hlength : a.length = n) (h : ∀ i, Shaped T σ (a.valueAt i)) :
    Shaped T (n :: σ) (.array a)
  | top {σ} : Shaped T σ .top

variable {T : Set Target} {σ : List (Option Int)}

lemma Below.trans (hvw : Below v w) (hw : Shaped T σ w) (hwu : Below w u) : Below v u := by
  induction hwu generalizing v σ with
  | void h => exact .void (hvw.void_of_void h)
  | top => exact .top
  | int h' =>
    cases hvw with
    | void h => exact .void h
    | int h => exact .int (le_trans h h')
  | addr h' =>
    cases hvw with
    | void h => exact .void h
    | addr h => exact .addr (le_trans h h')
    | null ha hb => exact .null ha (mayBeNull_of_le h' hb)
  | null hb hc =>
    cases hvw with
    | void h => exact .void h
    | @int a _ h =>
      obtain _ | htight := hw
      cases ha : a.isBottom with
      | true => exact .void (.int ha)
      | false => exact .null (htight.constant?_of_le ha h hb) hc
  | array hlength' h' ih =>
    cases hvw with
    | void h => exact .void h
    | array hlength h =>
      obtain _ | _ | _ | ⟨-, hshaped⟩ := hw
      refine .array ?_ fun i hi => ih i (hasIndex_of_length hlength hi) (h i hi) (hshaped i)
      rcases hlength' with hnone | heq
      · exact .inl hnone
      · exact hlength.imp heq.symm.trans (·.trans heq)

/-! ## Upper bounds -/

/-- An operation on values of a shape whose results are of that shape and above both operands. -/
def Bounds (T : Set Target) (σ : List (Option Int)) (f : Value → Value → Except Fault Value) :
    Prop :=
  ∀ ⦃v w u : Value⦄, Shaped T σ v → Shaped T σ w → f v w = .ok u →
    Shaped T σ u ∧ Below v u ∧ Below w u

section Bounds

variable {join f : Value → Value → Except Fault Value} {range : Interval}

lemma read_spec (hjoin : Bounds T σ join) (ha : ∀ i, Shaped T σ (a.valueAt i))
    (h : a.read .bottom join range = .ok r) :
    Shaped T σ r ∧ ∀ i, a.HasIndex i → range.contains i → Below (a.valueAt i) r :=
  read_bounds (fun _ _ _ => Below.trans) .bottom hjoin ha h

lemma bounds_array {n : Option Int} (hla : a.length = n) (hlb : b.length = n) (hlc : c.length = n)
    (h : ∀ i, Shaped T σ (c.valueAt i) ∧ (a.HasIndex i → Below (a.valueAt i) (c.valueAt i)) ∧
      (b.HasIndex i → Below (b.valueAt i) (c.valueAt i))) :
    Shaped T (n :: σ) (.array c) ∧ Below (.array a) (.array c) ∧ Below (.array b) (.array c) :=
  ⟨.array hlc fun i => (h i).1, .array (.inr (hla.trans hlc.symm)) fun i => (h i).2.1,
    .array (.inr (hlb.trans hlc.symm)) fun i => (h i).2.2⟩

lemma bounds_combine {n : Option Int} (hjoin : Bounds T σ join) (hf : Bounds T σ f)
    (ha : Shaped T (n :: σ) (.array a)) (hb : Shaped T (n :: σ) (.array b))
    (h : Segmented.combine .bottom join f a b = .ok c) :
    Shaped T (n :: σ) (.array c) ∧ Below (.array a) (.array c) ∧ Below (.array b) (.array c) := by
  obtain _ | _ | _ | ⟨hla, ha⟩ := ha
  obtain _ | _ | _ | ⟨hlb, hb⟩ := hb
  exact bounds_array hla hlb ((length_combine (hlb.trans hla.symm) h).trans hla)
    (combine_bounds (P := Shaped T σ) (fun _ _ _ => Below.trans) .bottom hjoin ha hf hb h)

end Bounds

def joinKinds (fuel : Nat) : Value → Value → Except Fault Value
  | .int a, .int b => return .int (← a.join b)
  | .addr a, .addr b => return .addr (a.join b)
  | .array a, .array b =>
    match fuel with
    | 0 => return .top
    | n + 1 => return .array (← Segmented.combine .bottom (joinWith n) (joinWith n) a b)
  | .int i, .addr a => return if i.constant? = some 0 then .addr (a.join .null) else .top
  | .addr a, .int i => return if i.constant? = some 0 then .addr (a.join .null) else .top
  | _, _ => return .top

lemma joinWith_cases {n : Nat} (h : joinWith n v w = .ok u) :
    (v.Void ∧ u = w) ∨ (¬ v.Void ∧ w.Void ∧ u = v) ∨
      (¬ v.Void ∧ ¬ w.Void ∧ joinKinds n v w = .ok u) := by
  unfold joinWith at h
  obtain ⟨bv, hbv, h⟩ := bind_eq_ok.1 h
  cases bv with
  | true =>
    cases h
    exact .inl ⟨void_of_isBottom hbv, rfl⟩
  | false =>
    obtain ⟨bw, hbw, h⟩ := bind_eq_ok.1 h
    cases bw with
    | true =>
      cases h
      exact .inr (.inl ⟨not_void_of_isBottom hbv, void_of_isBottom hbw, rfl⟩)
    | false =>
      refine .inr (.inr ⟨not_void_of_isBottom hbv, not_void_of_isBottom hbw, ?_⟩)
      cases n <;> cases v <;> cases w <;> exact h

/-- The joins of two values that describe something, by what kinds of values they are. -/
inductive JoinsTo (n : Nat) : Value → Value → Value → Prop
  | top {v w : Value} : JoinsTo n v w .top
  | int {i j k : IntVal} (h : i.join j = .ok k) : JoinsTo n (.int i) (.int j) (.int k)
  | addr (x y : AddrSet) : JoinsTo n (.addr x) (.addr y) (.addr (x.join y))
  | null {i : IntVal} (hi : i.constant? = some 0) (x : AddrSet) :
    JoinsTo n (.int i) (.addr x) (.addr (x.join .null))
  | orNull (x : AddrSet) {i : IntVal} (hi : i.constant? = some 0) :
    JoinsTo n (.addr x) (.int i) (.addr (x.join .null))
  | array {m : Nat} {a b c : ArrayVal} (hn : n = m + 1)
    (h : Segmented.combine .bottom (joinWith m) (joinWith m) a b = .ok c) :
    JoinsTo n (.array a) (.array b) (.array c)

lemma joinsTo_of_joinKinds {n : Nat} (h : joinKinds n v w = .ok u) : JoinsTo n v w u := by
  cases v <;> cases w
  case int.int =>
    obtain ⟨k, hk, h⟩ := bind_eq_ok.1 h
    cases h
    exact .int hk
  case addr.addr => cases h; exact .addr _ _
  case int.addr =>
    cases h
    split
    exacts [.null ‹_› _, .top]
  case addr.int =>
    cases h
    split
    exacts [.orNull _ ‹_›, .top]
  case array.array =>
    cases n with
    | zero => cases h; exact .top
    | succ n =>
      obtain ⟨c, hc, h⟩ := bind_eq_ok.1 h
      cases h
      exact .array rfl hc
  all_goals cases h; exact .top

lemma eq_of_join_bottom (h : join .bottom v = .ok u) : u = v := by
  rcases joinWith_cases h with ⟨-, rfl⟩ | ⟨hvoid, -⟩ | ⟨hvoid, -⟩
  · rfl
  · exact absurd .bottom hvoid
  · exact absurd .bottom hvoid

lemma below_join_null {i : IntVal} (hi : i.constant? = some 0) (x : AddrSet) :
    Below (.int i) (.addr (x.join .null)) ∧ Below (.addr x) (.addr (x.join .null)) :=
  ⟨.null hi (mayBeNull_of_le (le_join_right x .null) mayBeNull_null), .addr (le_join_left x .null)⟩

lemma joinKinds_spec (hT : none ∈ T) {n : Nat}
    (ih : ∀ m, n = m + 1 → ∀ σ, Bounds T σ (joinWith m)) (hv : Shaped T σ v) (hw : Shaped T σ w)
    (h : joinKinds n v w = .ok u) : Shaped T σ u ∧ Below v u ∧ Below w u := by
  cases joinsTo_of_joinKinds h with
  | top => exact ⟨.top, .top, .top⟩
  | int hk =>
    obtain _ | hi := hv
    obtain _ | hj := hw
    exact ⟨.int (tight_join hi hj hk), .int (le_join_left hi hk), .int (le_join_right hj hk)⟩
  | addr x y =>
    obtain _ | _ | hx := hv
    obtain _ | _ | hy := hw
    exact ⟨.addr (within_join hx hy), .addr (le_join_left _ _), .addr (le_join_right _ _)⟩
  | null hi x =>
    obtain _ | _ | hx := hw
    exact ⟨.addr (within_join hx (within_null hT)), below_join_null hi x⟩
  | orNull x hi =>
    obtain _ | _ | hx := hv
    exact ⟨.addr (within_join hx (within_null hT)), (below_join_null hi x).symm⟩
  | array hn hc =>
    obtain _ | _ | _ | ⟨hla, ha⟩ := hv
    have hjoin := ih _ hn
    exact bounds_combine (hjoin _) (hjoin _) (.array hla ha) hw hc

lemma bounds_joinWith (hT : none ∈ T) (n : Nat) (σ : List (Option Int)) :
    Bounds T σ (joinWith n) := by
  induction n using Nat.strongRecOn generalizing σ with
  | ind n ih =>
    intro v w u hv hw h
    rcases joinWith_cases h with ⟨hvoid, rfl⟩ | ⟨-, hvoid, rfl⟩ | ⟨-, -, h⟩
    · exact ⟨hw, .void hvoid, .refl _⟩
    · exact ⟨hv, .refl _, .void hvoid⟩
    · exact joinKinds_spec hT (fun m hm => ih m (by omega)) hv hw h

lemma bounds_join (hT : none ∈ T) (σ : List (Option Int)) : Bounds T σ join :=
  fun _ _ _ hv hw h => bounds_joinWith hT _ σ hv hw h

/-! ## Widening -/

/-- The widening of a value that describes something. -/
def widenKinds (fuel : Nat) : Value → Value → Except Fault Value
  | .int a, .int b => return .int (a.widen b)
  | .array a, .array b =>
    match fuel with
    | 0 => return .top
    | n + 1 => return .array (← Segmented.widen .bottom arrayIsBottom join (widenWith n) a b)
  | v, w => v.join w

lemma widenWith_cases {n : Nat} (h : widenWith n v w = .ok u) :
    (v.Void ∧ u = w) ∨ (¬ v.Void ∧ widenKinds n v w = .ok u) := by
  unfold widenWith at h
  obtain ⟨bv, hbv, h⟩ := bind_eq_ok.1 h
  cases bv with
  | true =>
    cases h
    exact .inl ⟨void_of_isBottom hbv, rfl⟩
  | false =>
    refine .inr ⟨not_void_of_isBottom hbv, ?_⟩
    cases n <;> cases v <;> cases w <;> exact h

lemma bounds_widen_array {f : Value → Value → Except Fault Value} {n : Option Int}
    (hT : none ∈ T) (hf : Bounds T σ f) (ha : Shaped T (n :: σ) (.array a))
    (hb : Shaped T (n :: σ) (.array b))
    (h : Segmented.widen .bottom arrayIsBottom join f a b = .ok c) :
    Shaped T (n :: σ) (.array c) ∧ Below (.array a) (.array c) ∧ Below (.array b) (.array c) := by
  obtain _ | _ | _ | ⟨hla, ha⟩ := ha
  obtain _ | _ | _ | ⟨hlb, hb⟩ := hb
  exact bounds_array hla hlb ((length_widen (hlb.trans hla.symm) h).trans hla)
    (widen_bounds (P := Shaped T σ) (fun _ _ _ => Below.trans) .bottom (bounds_join hT σ) ha
      hf hb h)

lemma bounds_widenWith (hT : none ∈ T) (n : Nat) (σ : List (Option Int)) :
    Bounds T σ (widenWith n) := by
  induction n using Nat.strongRecOn generalizing σ with
  | ind n ih =>
    intro v w u hv hw h
    rcases widenWith_cases h with ⟨hvoid, rfl⟩ | ⟨-, h⟩
    · exact ⟨hw, .void hvoid, .refl _⟩
    have hjoin : v.join w = .ok u → Shaped T σ u ∧ Below v u ∧ Below w u :=
      bounds_join hT σ hv hw
    cases hv with
    | int hi =>
      cases hw with
      | int hj =>
        cases h
        exact ⟨.int (tight_widen hi hj), .int (le_widen_left _ _), .int (le_widen_right _ _)⟩
      | _ => exact hjoin h
    | array hla ha =>
      cases hw with
      | array hlb hb =>
        cases n with
        | zero => cases h; exact ⟨.top, .top, .top⟩
        | succ n =>
          obtain ⟨c, hc, h⟩ := bind_eq_ok.1 h
          cases h
          exact bounds_widen_array hT (ih n (by omega) _) (.array hla ha) (.array hlb hb) hc
      | _ => exact hjoin h
    | _ => cases hw <;> exact hjoin h

lemma bounds_widen (hT : none ∈ T) (σ : List (Option Int)) : Bounds T σ widen :=
  fun _ _ _ hv hw h => bounds_widenWith hT _ σ hv hw h

/-! ## Scalar values -/

lemma shaped_iff : Shaped Set.univ [] v ↔ v.Scalar := by
  cases v with
  | int a => exact ⟨fun h => (by cases h; assumption), .int⟩
  | addr a => exact iff_of_true (.addr (by cases a <;> simp [Within])) trivial
  | array a => exact ⟨fun h => (by cases h), False.elim⟩
  | bottom => exact iff_of_true .bottom trivial
  | top => exact iff_of_true .top trivial

lemma below_iff (hv : v.Scalar) (hw : w.Scalar) : Below v w ↔ v.leScalar w := by
  refine ⟨fun h => eq_true_of_below h (le_eq hv hw), fun h => ?_⟩
  rcases Bool.or_eq_true_iff.1 h with hvoid | h
  · exact .void ((isBottom_iff (isBottom_eq hv)).1 hvoid)
  split at h
  · exact .top
  · exact .int h
  · exact .addr h
  · simp only [Bool.and_eq_true, beq_iff_eq] at h
    exact .null h.1 h.2
  · cases h

lemma le_iff (hv : v.Scalar) (hw : w.Scalar) : v.le w = .ok true ↔ Below v w := by
  rw [le_eq hv hw, below_iff hv hw, Except.ok.injEq]

/-- An operation whose results are scalar and above both operands. -/
def UpperBound (f : Value → Value → Except Fault Value) : Prop :=
  ∀ ⦃v w u : Value⦄, v.Scalar → w.Scalar → f v w = .ok u → u.Scalar ∧ Below v u ∧ Below w u

lemma upperBound_iff {f : Value → Value → Except Fault Value} :
    UpperBound f ↔ Bounds Set.univ [] f := by
  simp only [UpperBound, Bounds, shaped_iff]

lemma upperBound_join : UpperBound join := upperBound_iff.2 (bounds_join (Set.mem_univ _) [])

lemma upperBound_widen : UpperBound widen := upperBound_iff.2 (bounds_widen (Set.mem_univ _) [])

lemma upperBound_widen_join : UpperBound (fun v w => do v.widen (← v.join w)) := by
  intro v w u hv hw h
  obtain ⟨x, hx, h⟩ := bind_eq_ok.1 h
  obtain ⟨hxs, -, hwx⟩ := upperBound_join hv hw hx
  obtain ⟨hus, hvu, hxu⟩ := upperBound_widen hv hxs h
  exact ⟨hus, hvu, hwx.trans (shaped_iff.2 hxs) hxu⟩

lemma narrow_spec (hv : v.Scalar) (hw : w.Scalar) (h : v.narrow w = .ok u) :
    u.Scalar ∧ (Below w v → Below w u) := by
  unfold narrow at h
  rw [depth_eq hv, depth_eq hw] at h
  cases v with
  | top => cases h; exact ⟨hw, fun _ => .refl w⟩
  | array a => exact absurd hv id
  | bottom => cases h; exact ⟨hv, id⟩
  | addr a => cases h; exact ⟨hv, id⟩
  | int a =>
    cases w with
    | int b =>
      obtain ⟨c, hc, h⟩ := bind_eq_ok.1 h
      cases h
      refine ⟨tight_narrow hv hw hc, fun hle => ?_⟩
      cases hle with
      | void hvoid => exact .void hvoid
      | int hle => exact .int (le_narrow hw hle hc)
    | _ => cases h; exact ⟨hv, id⟩

end Value
end StaticAnalysis
