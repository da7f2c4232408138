import StaticAnalysis.Proofs.Soundness.Members

/-!
# Arrays of concrete elements

A concretization says which concrete elements a value stands for; joins and widenings of values
stand for what either operand stands for.  An array then describes the concrete arrays whose element
at each of its indices is among those of the segment that the index belongs to.

A store at a known index moves the split there and folds the old middle into the side it now belongs
to; a store at an unknown index reaches every segment that has a candidate.  Either way the new
array is above the stored value at the index and above the old elements everywhere else (`Stored`),
so that it describes the concrete array after the store.
-/

namespace StaticAnalysis

open Fault StaticAnalysis.Interval List Segmented Value

/-- What the values of elements stand for, for a class of values that joins and widenings do not
leave: their results stand for everything that an operand stands for. -/
structure Concretization (X : Type) where
  values : Set Value
  meaning : Value → Set X
  bottom_mem : .bottom ∈ values
  join : Bounds (· ∈ values) (fun v w => meaning v ⊆ meaning w) Value.join
  widen : Bounds (· ∈ values) (fun v w => meaning v ⊆ meaning w) Value.widen

/-- A store into a concrete array, with what the analysis knows about its index and its value. -/
structure Store (X : Type) where
  range : Interval
  index : Int
  value : Value
  element : X
  partitioning : Bool

namespace Store

variable {X : Type}

/-- The concrete array after a store. -/
def apply (f : Int → X) (s : Store X) : Int → X := Function.update f s.index s.element

/-- The array after a store. -/
def write (a : ArrayVal) (s : Store X) : Except Fault ArrayVal :=
  ArrayVal.write a s.range s.value s.partitioning

/-- What is known is right, and the index is one of the array. -/
structure Valid (γ : Concretization X) (a : ArrayVal) (s : Store X) : Prop where
  range : s.range.contains s.index = true
  index : a.HasIndex s.index
  value : s.value ∈ γ.values
  element : s.element ∈ γ.meaning s.value

end Store

namespace Concretization

variable {X : Type}

/-- Larger values have larger meanings. -/
def Monotone (γ : Concretization X) : Prop :=
  ∀ ⦃v w : Value⦄, v ∈ γ.values → w ∈ γ.values → v.le w = .ok true → γ.meaning v ⊆ γ.meaning w

/-- The elements of an array are among the values that have a meaning. -/
def Interprets (γ : Concretization X) (a : ArrayVal) : Prop := ∀ i, a.valueAt i ∈ γ.values

/-- The element at each index is among those of the segment that the index belongs to. -/
def Describes (γ : Concretization X) (a : ArrayVal) (f : Int → X) : Prop :=
  ∀ i, a.HasIndex i → f i ∈ γ.meaning (a.valueAt i)

/-- What an array is after a store: above the stored value at the index, and above the old elements
everywhere else. -/
structure Stored (γ : Concretization X) (a : ArrayVal) (i : Int) (v : Value) (c : ArrayVal) :
    Prop where
  length : c.length = a.length
  interprets : γ.Interprets c
  written : γ.meaning v ⊆ γ.meaning (c.valueAt i)
  kept : ∀ j, a.HasIndex j → j ≠ i → γ.meaning (a.valueAt j) ⊆ γ.meaning (c.valueAt j)

variable {γ : Concretization X} {a b c : ArrayVal} {f : Int → X} {u v w : Value} {range : Interval}
  {i k : Int}

lemma interprets_split {n : Option Int} {left mid right : Value} :
    γ.Interprets ⟨n, .split k left mid right⟩ ↔
      left ∈ γ.values ∧ mid ∈ γ.values ∧ right ∈ γ.values := by
  constructor
  · intro h
    exact ⟨by simpa [valueAt] using h (k - 1), by simpa [valueAt] using h k,
      by simpa [valueAt] using h (k + 1)⟩
  · rintro ⟨hleft, hmid, hright⟩ i
    simp only [valueAt]
    split_ifs
    exacts [hleft, hmid, hright]

/-! ## Stores at known indices -/

/-- A side takes in the old middle, and the side behind it if there are indices between the two
splits. -/
lemma joins_spec {β : Type} {g : Value → β} {q : Prop} [Decidable q] {x s : Value} {y : β}
    (hu : u ∈ γ.values) (hw : w ∈ γ.values) (hx : x ∈ γ.values) (hs : u.join w = .ok s)
    (h : (if q then do let t ← s.join x; pure (g t) else do let t ← pure s; pure (g t)) = .ok y) :
    ∃ t ∈ γ.values, g t = y ∧ γ.meaning u ⊆ γ.meaning t ∧ γ.meaning w ⊆ γ.meaning t ∧
      (q → γ.meaning x ⊆ γ.meaning t) := by
  obtain ⟨hps, hus, hws⟩ := γ.join hu hw hs
  split at h
  · obtain ⟨t, ht, h⟩ := bind_eq_ok.1 h
    cases h
    obtain ⟨hpt, hst, hxt⟩ := γ.join hps hx ht
    exact ⟨t, hpt, rfl, hus.trans hst, hws.trans hst, fun _ => hxt⟩
  next hq =>
    cases h
    exact ⟨s, hps, rfl, hus, hws, fun h => absurd h hq⟩

lemma sidesOf_spec {left right : Value} (ha : γ.Interprets a)
    (h : a.sidesOf Value.join k = .ok (left, right)) : left ∈ γ.values ∧ right ∈ γ.values ∧
      ∀ i, (i < k → γ.meaning (a.valueAt i) ⊆ γ.meaning left) ∧
        (k < i → γ.meaning (a.valueAt i) ⊆ γ.meaning right) := by
  obtain ⟨n, _ | ⟨j, l, m, r⟩⟩ := a
  · cases h
    exact ⟨ha 0, ha 0, fun i => ⟨fun _ => subset_rfl, fun _ => subset_rfl⟩⟩
  · obtain ⟨hl, hm, hr⟩ := interprets_split.1 ha
    unfold sidesOf at h
    dsimp only [valueAt] at h ⊢
    split at h
    · cases h
      refine ⟨hl, hr, fun i => ⟨fun hi => ?_, fun hi => ?_⟩⟩ <;> split_ifs <;>
        first | exact subset_rfl | omega
    split at h
    · obtain ⟨s, hs, h⟩ := bind_eq_ok.1 h
      obtain ⟨t, ht, heq, hlt, hmt, hrt⟩ := joins_spec (g := fun t => (t, r)) hl hm hr hs h
      cases heq
      refine ⟨ht, hr, fun i => ⟨fun hi => ?_, fun hi => ?_⟩⟩ <;> split_ifs <;>
        first | exact subset_rfl | assumption | exact hrt (by omega) | omega
    · obtain ⟨s, hs, h⟩ := bind_eq_ok.1 h
      obtain ⟨t, ht, heq, hrt, hmt, hlt⟩ := joins_spec (g := fun t => (l, t)) hr hm hl hs h
      cases heq
      refine ⟨hl, ht, fun i => ⟨fun hi => ?_, fun hi => ?_⟩⟩ <;> split_ifs <;>
        first | exact subset_rfl | assumption | exact hlt (by omega) | omega

lemma writeAt_stored (ha : γ.Interprets a) (hv : v ∈ γ.values)
    (h : a.writeAt .bottom Value.join k v = .ok c) : γ.Stored a k v c := by
  obtain ⟨last, hlast, h⟩ := bind_eq_ok.1 h
  obtain ⟨⟨left, right⟩, hsides, h⟩ := bind_eq_ok.1 h
  obtain ⟨hl, hr, hsides⟩ := sidesOf_spec ha hsides
  cases h
  refine ⟨rfl, interprets_split.2 ⟨?_, hv, ?_⟩, by simp [valueAt], fun j hj hne => ?_⟩
  · split_ifs
    exacts [γ.bottom_mem, hl]
  · split_ifs
    exacts [γ.bottom_mem, hr]
  · -- A side is dropped only if there is no index on it.
    obtain ⟨hnonneg, hbound⟩ := (hasIndex_iff_last? hlast).1 hj
    simp only [valueAt]
    rcases lt_or_gt_of_ne hne with hjk | hjk
    · rw [if_pos hjk, if_neg (by omega)]
      exact (hsides j).1 hjk
    · rw [if_neg (by omega), if_neg hne, if_neg]
      · exact (hsides j).2 hjk
      · intro hend
        cases last with
        | none => cases hend
        | some m =>
          have hmk : m ≤ k := of_decide_eq_true hend
          have := hbound m rfl
          omega

/-! ## Stores at one of several indices -/

lemma update_spec {segment : Interval} (hu : u ∈ γ.values) (hv : v ∈ γ.values)
    (h : (if (segment.meet range).isEmpty then pure u else u.join v) = .ok w) :
    w ∈ γ.values ∧ γ.meaning u ⊆ γ.meaning w ∧
      ∀ i, segment.contains i → range.contains i → γ.meaning v ⊆ γ.meaning w := by
  split at h
  next hempty =>
    cases h
    refine ⟨hu, subset_rfl, fun i hs hr => ?_⟩
    rw [isEmpty_of_contains (contains_meet.2 ⟨hs, hr⟩)] at hempty
    cases hempty
  next =>
    obtain ⟨hw, hle, hle'⟩ := γ.join hu hv h
    exact ⟨hw, hle, fun _ _ _ => hle'⟩

lemma writeSome_spec (ha : γ.Interprets a) (hv : v ∈ γ.values)
    (h : a.writeSome Value.join range v = .ok c) :
    c.length = a.length ∧ ∀ i, c.valueAt i ∈ γ.values ∧
      γ.meaning (a.valueAt i) ⊆ γ.meaning (c.valueAt i) ∧
      (range.contains i → γ.meaning v ⊆ γ.meaning (c.valueAt i)) := by
  obtain ⟨n, _ | ⟨k, l, m, r⟩⟩ := a
  · obtain ⟨u, hu, h⟩ := bind_eq_ok.1 h
    cases h
    obtain ⟨hpu, hwu, hvu⟩ := γ.join (ha 0) hv hu
    exact ⟨rfl, fun i => ⟨hpu, hwu, fun _ => hvu⟩⟩
  · obtain ⟨hl, hm, hr⟩ := interprets_split.1 ha
    obtain ⟨low, hlow, h⟩ := bind_eq_ok.1 h
    obtain ⟨l', hl', h⟩ := bind_eq_ok.1 h
    obtain ⟨m', hm', h⟩ := bind_eq_ok.1 h
    obtain ⟨high, hhigh, h⟩ := bind_eq_ok.1 h
    obtain ⟨r', hr', h⟩ := bind_eq_ok.1 h
    cases h
    obtain ⟨hpl, hll, hvl⟩ := update_spec hl hv hl'
    obtain ⟨hpm, hmm, hvm⟩ := update_spec hm hv hm'
    obtain ⟨hpr, hrr, hvr⟩ := update_spec hr hv hr'
    refine ⟨rfl, fun i => ?_⟩
    simp only [valueAt]
    split_ifs with hlt heq
    · exact ⟨hpl, hll, hvl i ((contains_below hlow).2 hlt)⟩
    · exact ⟨hpm, hmm, hvm i (contains_constant.2 heq)⟩
    · exact ⟨hpr, hrr, hvr i ((contains_above hhigh).2 (by omega))⟩

lemma write_stored {partitioning : Bool} (ha : γ.Interprets a) (hv : v ∈ γ.values) (hi : a.HasIndex i)
    (hrange : range.contains i) (h : ArrayVal.write a range v partitioning = .ok c) :
    γ.Stored a i v c := by
  obtain ⟨all, hall, h⟩ := bind_eq_ok.1 h
  have hmeet : (range.meet all).contains i := contains_meet.2 ⟨hrange, (contains_indices hall).2 hi⟩
  rw [if_neg (by simp [isEmpty_of_contains hmeet])] at h
  have hsome : a.writeSome Value.join (range.meet all) v = .ok c → γ.Stored a i v c := by
    intro h
    obtain ⟨hlength, hc⟩ := writeSome_spec ha hv h
    exact ⟨hlength, fun j => (hc j).1, (hc i).2.2 hmeet, fun j _ _ => (hc j).2.1⟩
  split at h
  next k hk =>
    obtain rfl := eq_of_constant? hk hmeet
    split at h
    · exact writeAt_stored ha hv h
    split at h
    next hone =>
      cases h
      -- The only element of the array is the one that is replaced.
      refine ⟨rfl, fun _ => hv, subset_rfl, fun j hj hne => ?_⟩
      have hlast := hj.2 1 hone.1
      have hfirst := hj.1
      omega
    · exact hsome h
  next => exact hsome h

/-! ## Descriptions -/

lemma hasIndex_congr (h : b.length = a.length) : b.HasIndex i ↔ a.HasIndex i := by
  rw [HasIndex, HasIndex, h]

lemma Describes.store {s : Store X} (hf : γ.Describes a f) (ha : γ.Interprets a) (hs : s.Valid γ a)
    (h : s.write a = .ok c) :
    c.length = a.length ∧ γ.Interprets c ∧ γ.Describes c (s.apply f) := by
  have hc := write_stored ha hs.value hs.index hs.range h
  refine ⟨hc.length, hc.interprets, fun j hj => ?_⟩
  rw [hasIndex_congr hc.length] at hj
  unfold Store.apply
  by_cases hne : j = s.index
  · rw [hne, Function.update_self]
    exact hc.written hs.element
  · rw [Function.update_of_ne hne]
    exact hc.kept j hj hne (hf j hj)

lemma Describes.stores {stores : List (Store X)} (hf : γ.Describes a f) (ha : γ.Interprets a)
    (hs : ∀ s ∈ stores, s.Valid γ a) (h : stores.foldlM Store.write a = .ok c) :
    c.length = a.length ∧ γ.Interprets c ∧ γ.Describes c (stores.foldl Store.apply f) := by
  induction stores generalizing a f with
  | nil =>
    cases h
    exact ⟨rfl, ha, hf⟩
  | cons s stores ih =>
    obtain ⟨b, hb, h⟩ := bind_eq_ok.1 h
    obtain ⟨hlength, hbi, hbf⟩ := hf.store ha (hs s mem_cons_self) hb
    have hvalid : ∀ t ∈ stores, t.Valid γ b := fun t ht => by
      obtain ⟨hrange, hindex, hvalue, helement⟩ := hs t (mem_cons_of_mem s ht)
      exact ⟨hrange, (hasIndex_congr hlength).2 hindex, hvalue, helement⟩
    obtain ⟨hlength', hci, hcf⟩ := ih hbf hbi hvalid h
    exact ⟨hlength'.trans hlength, hci, hcf⟩

/-- Either side is described by an array above both. -/
lemma Describes.of_above (hlength : b.length = a.length) (hc : c.length = a.length)
    (h : ∀ i, c.valueAt i ∈ γ.values ∧
      (a.HasIndex i → γ.meaning (a.valueAt i) ⊆ γ.meaning (c.valueAt i)) ∧
      (b.HasIndex i → γ.meaning (b.valueAt i) ⊆ γ.meaning (c.valueAt i)))
    (hf : γ.Describes a f ∨ γ.Describes b f) : γ.Describes c f := by
  intro i hi
  have hia := (hasIndex_congr hc).1 hi
  have hib := (hasIndex_congr hlength).2 hia
  rcases hf with hf | hf
  · exact (h i).2.1 hia (hf i hia)
  · exact (h i).2.2 hib (hf i hib)

end Concretization

/-- What arrays describe, under any meaning of their elements.  After a store at an index of an
interval, with partitioning or without, an array describes the concrete array after the store, and
so after any sequence of stores; what is read at the interval stands for the element there.  Joins
and widenings of arrays of one length describe what either describes.  If larger values have larger
meanings, an array above another describes what the other describes. -/
theorem ArrayVal.describes_operations {X : Type} (γ : Concretization X) {a b : ArrayVal}
    (ha : γ.Interprets a) (hb : γ.Interprets b) (f : Int → X) :
    (γ.Describes a f → ∀ (i : Int) (range : Interval), a.HasIndex i → range.contains i = true →
      (∀ (v : Value) (x : X) (partitioning : Bool) (c : ArrayVal), v ∈ γ.values → x ∈ γ.meaning v →
        a.write range v partitioning = .ok c →
          c.length = a.length ∧ γ.Describes c (Function.update f i x)) ∧
      ∀ v, Value.readArray a range = .ok v → f i ∈ γ.meaning v) ∧
    (γ.Describes a f → ∀ (stores : List (Store X)) (c : ArrayVal), (∀ s ∈ stores, s.Valid γ a) →
      stores.foldlM Store.write a = .ok c →
        c.length = a.length ∧ γ.Describes c (stores.foldl Store.apply f)) ∧
    (b.length = a.length → γ.Describes a f ∨ γ.Describes b f →
      ∀ c, a.join b = .ok c ∨ a.widen b = .ok c → c.length = a.length ∧ γ.Describes c f) ∧
    (γ.Monotone → b.length = a.length → a.le b = .ok true → γ.Describes a f → γ.Describes b f) := by
  have htrans : ∀ ⦃u v w : Value⦄, γ.meaning u ⊆ γ.meaning v → v ∈ γ.values →
      γ.meaning v ⊆ γ.meaning w → γ.meaning u ⊆ γ.meaning w := fun _ _ _ huv _ hvw => huv.trans hvw
  refine ⟨fun hf i range hi hrange => ⟨fun v x partitioning c hv hx h => ?_, fun v h => ?_⟩,
    fun hf stores c hs h => ?_, fun hlength hf c h => ?_, fun hmono hlength h hf i hi => ?_⟩
  · obtain ⟨hlength, -, hc⟩ := hf.store ha (s := ⟨range, i, v, x, partitioning⟩) ⟨hrange, hi, hv,
      hx⟩ h
    exact ⟨hlength, hc⟩
  · exact (read_bounds htrans γ.bottom_mem γ.join ha h).2 i hi hrange (hf i hi)
  · obtain ⟨hlength, -, hc⟩ := hf.stores ha hs h
    exact ⟨hlength, hc⟩
  · rcases h with h | h
    · have hc := length_combine hlength h
      exact ⟨hc, .of_above hlength hc (combine_bounds htrans γ.bottom_mem γ.join ha γ.join hb h) hf⟩
    · have hc := length_widen hlength h
      exact ⟨hc, .of_above hlength hc (widen_bounds htrans γ.bottom_mem γ.join ha γ.widen hb h) hf⟩
  · have hia := (Concretization.hasIndex_congr hlength).1 hi
    exact hmono (ha i) (hb i) (le_valueAt hlength h hia) (hf i hia)

lemma Value.KeepsNumeric.bounds {op : Value → Value → Except Fault Value} (hnumeric : KeepsNumeric op)
    (hop : UpperBound op) : Segmented.Bounds Numeric
    (fun v w => {n | v.Has n} ⊆ {n | w.Has n}) op := by
  intro v w u hv hw h
  have hu := hnumeric hv hw h
  obtain ⟨-, hvu, hwu⟩ := hop hv.scalar hw.scalar h
  exact ⟨hu, fun _ => has_of_below hvu hu.isAddr, fun _ => has_of_below hwu hu.isAddr⟩

/-- The integers that values other than addresses and arrays stand for. -/
def Concretization.numbers : Concretization Int where
  values := {v | v.Numeric}
  meaning v := {n | v.Has n}
  bottom_mem := numeric_bottom
  join := numeric_join.bounds upperBound_join
  widen := numeric_widen.bounds upperBound_widen

lemma Concretization.monotone_numbers : numbers.Monotone := fun _ _ hv hw h _ =>
  has_of_below ((Value.le_iff hv.scalar hw.scalar).1 h) hw.isAddr

namespace ArrayVal

def zeros : ArrayVal := .uniform (some 4) (.ofInt 0)

/-- Nothing is known about the first two elements. -/
def unknownStart : ArrayVal := ⟨some 4, .split 2 .top (.ofInt 0) (.ofInt 0)⟩

/-- Stores at a known index, at one of two indices, and at a known index again. -/
def threeStores : List (Store Int) :=
  [⟨.constant 1, 1, .ofInt 5, 5, true⟩, ⟨.range 2 3, 3, .ofInt 7, 7, true⟩,
    ⟨.constant 2, 2, .ofInt 9, 9, true⟩]

/-- The array `0, 5, 9, 7` after three stores into zeros, and zeros below an array of which less is
known. -/
theorem describes_operations_zeros :
    (∃ c, threeStores.foldlM Store.write zeros = .ok c ∧ c.length = some 4 ∧
      Concretization.numbers.Describes c (threeStores.foldl Store.apply fun _ => 0)) ∧
    (∃ c, zeros.widen unknownStart = .ok c ∧ Concretization.numbers.Describes c fun _ => 0) ∧
    Concretization.numbers.Describes unknownStart fun _ => 0 := by
  have hnumeric : ∀ n, Word.fits n → (Value.ofInt n).Numeric := fun n h =>
    numeric_int (IntVal.tight_constant h)
  have hhas : ∀ n, (Value.ofInt n).Has n := fun n => IntVal.contains_constant.2 rfl
  have hdescribes : Concretization.numbers.Describes zeros fun _ => 0 := fun _ _ => hhas 0
  obtain ⟨-, hstores, hwiden, hle⟩ := describes_operations Concretization.numbers (a := zeros)
    (fun _ => hnumeric 0 (by decide)) (Concretization.interprets_split.2
      ⟨numeric_top, hnumeric 0 (by decide), hnumeric 0 (by decide)⟩ :
        Concretization.numbers.Interprets unknownStart) fun _ => 0
  refine ⟨?_, ?_, hle Concretization.monotone_numbers rfl (by decide +kernel) hdescribes⟩
  · have hrun : threeStores.foldlM Store.write zeros = .ok ⟨some 4, .split 2
      (.int ⟨.range 0 5, .residue 0 5⟩) (.ofInt 9) (.int ⟨.range 0 7, .residue 0 7⟩)⟩ := by
      decide +kernel
    refine ⟨_, hrun, hstores hdescribes _ _ (fun s hs => ?_) hrun⟩
    simp only [threeStores, mem_cons, not_mem_nil, or_false] at hs
    rcases hs with rfl | rfl | rfl
    all_goals exact ⟨by decide, ⟨by decide, by simp [zeros, uniform]⟩, hnumeric _ (by decide),
      hhas _⟩
  · have h : zeros.widen unknownStart = .ok (.uniform (some 4) .top) := by decide +kernel
    exact ⟨_, h, (hwiden rfl (.inl hdescribes) _ (.inr h)).2⟩

end ArrayVal
end StaticAnalysis
