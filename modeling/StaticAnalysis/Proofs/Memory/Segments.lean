import StaticAnalysis.Memory.Segmented
import StaticAnalysis.Proofs.Numeric.Membership

/-!
# Indices of segmented arrays

An operation on arrays works segment by segment, and a segment counts only if it has an index.  The
lemmas here are about single indices: the segments of an array cover its indices (`segments_spec`),
a test of all segments is a test at all indices (`all_spec`), reading an interval folds a list that
holds the element at each index of it (`read_eq`), every index has a representative among the
regions on which two arrays are both constant (`exists_mem_regions`), and combining two arrays
combines the elements at each index, or what is read around it (`combine_valueAt`).  Where
operations on elements are upper bounds, so are those on arrays (`combine_bounds`, `widen_bounds`).
-/

namespace StaticAnalysis

open StaticAnalysis.Bound Fault StaticAnalysis.Interval Word
open List hiding range

lemma Interval.exists_contains_between {l h : Bound} (hne : (between l h).isEmpty = false) :
    ∃ n, (between l h).contains n := by
  unfold between at hne ⊢
  split at hne
  · simp at hne
  next hlh =>
    rw [if_neg hlh]
    push Not at hlh
    obtain ⟨-, hl, hh⟩ := hlh
    rw [isEmpty_mk_false] at hne
    cases l with
    | posInf => exact absurd rfl hl
    | finite n => exact ⟨n, contains_iff.2 ⟨le_rfl, hne⟩⟩
    | negInf =>
      cases h with
      | negInf => exact absurd rfl hh
      | finite n => exact ⟨n, contains_iff.2 ⟨negInf_le _, le_rfl⟩⟩
      | posInf => exact ⟨0, contains_iff.2 ⟨negInf_le _, le_posInf _⟩⟩

lemma Interval.exists_contains_meet {i j : Interval} (hne : (i.meet j).isEmpty = false) :
    ∃ n, (i.meet j).contains n :=
  exists_contains_between hne

lemma Word.eq_of_add {a b c : Int} (h : add a b = .ok c) : a + b = c := (exact_eq_ok.1 h).2

namespace Segmented

variable {α β : Type} {a : Segmented α} {b : Segmented β} {i k : Int}

def HasIndex (a : Segmented α) (i : Int) : Prop := 0 ≤ i ∧ ∀ n, a.length = some n → i < n

/-! ## Segments -/

lemma hasIndex_iff_last? {last : Option Int} (h : a.last? = .ok last) :
    a.HasIndex i ↔ 0 ≤ i ∧ ∀ m, last = some m → i ≤ m := by
  unfold last? at h
  cases hn : a.length with
  | none =>
    rw [hn] at h
    cases h
    simp [HasIndex, hn]
  | some n =>
    rw [hn] at h
    obtain ⟨m, hm, rfl⟩ := map_eq_ok.1 h
    have := eq_of_sub hm
    simp only [HasIndex, hn, Option.some.injEq, forall_eq']
    omega

lemma contains_indices {all : Interval} (h : a.indices = .ok all) :
    all.contains i ↔ a.HasIndex i := by
  obtain ⟨last, hlast, h⟩ := bind_eq_ok.1 h
  rw [hasIndex_iff_last? hlast]
  cases last <;> cases h
  · simp [contains_atLeast]
  · simp [range, contains_between]

lemma contains_below {range : Interval} (h : below k = .ok range) : range.contains i ↔ i < k := by
  obtain ⟨m, hm, rfl⟩ := map_eq_ok.1 h
  have := eq_of_sub hm
  rw [contains_atMost]
  omega

lemma contains_above {range : Interval} (h : above k = .ok range) : range.contains i ↔ k < i := by
  obtain ⟨m, hm, rfl⟩ := map_eq_ok.1 h
  have := eq_of_add hm
  rw [contains_atLeast]
  omega

lemma exists_contains_indices {all : Interval} (h : a.indices = .ok all)
    (hne : all.isEmpty = false) : ∃ i, all.contains i := by
  obtain ⟨last, -, h⟩ := bind_eq_ok.1 h
  cases last <;> cases h <;> exact exists_contains_between hne

/-- The segments of an array lie at its indices, have the values there, and cover all of them. -/
structure Covers (a : Segmented α) (segs : List (Interval × α)) : Prop where
  exists_contains : ∀ p ∈ segs, p.1.isEmpty = false → ∃ i, p.1.contains i = true
  hasIndex : ∀ p ∈ segs, ∀ i, p.1.contains i = true → a.HasIndex i ∧ a.valueAt i = p.2
  exists_segment : ∀ i, a.HasIndex i → ∃ p ∈ segs, p.1.contains i = true
  exists_valueAt : ∀ p ∈ segs, ∃ i, a.valueAt i = p.2

lemma segments_spec {segs : List (Interval × α)} (h : a.segments = .ok segs) : a.Covers segs := by
  obtain ⟨all, hall, h⟩ := bind_eq_ok.1 h
  obtain ⟨length, layout⟩ := a
  cases layout with
  | whole v =>
    cases h
    refine ⟨?_, ?_, fun i hi => ?_, ?_⟩
    · simpa using exists_contains_indices hall
    · simpa [valueAt] using fun i => (contains_indices hall).1
    · exact ⟨_, mem_singleton_self _, (contains_indices hall).2 hi⟩
    · simp [valueAt]
  | split k left mid right =>
    obtain ⟨low, hlow, h⟩ := bind_eq_ok.1 h
    obtain ⟨high, hhigh, h⟩ := bind_eq_ok.1 h
    cases h
    have hindex := @contains_indices α ⟨length, .split k left mid right⟩
    refine ⟨?_, ?_, fun i hi => ?_, ?_⟩
    · simp only [forall_mem_cons, not_mem_nil, false_implies, implies_true, and_true]
      exact ⟨exists_contains_meet, exists_contains_meet, exists_contains_meet⟩
    · simp only [forall_mem_cons, not_mem_nil, false_implies, implies_true, and_true,
        contains_meet, hindex hall, contains_below hlow, contains_above hhigh,
        contains_constant, valueAt]
      refine ⟨fun i h => ⟨h.1, if_pos h.2⟩, fun i h => ⟨h.1, ?_⟩, fun i h => ⟨h.1, ?_⟩⟩
      · rw [if_neg (by omega), if_pos h.2]
      · rw [if_neg (by omega), if_neg (by omega)]
    · simp only [exists_mem_cons_iff, not_mem_nil, false_and, exists_false, or_false,
        contains_meet, hindex hall, contains_below hlow, contains_above hhigh,
        contains_constant, hi, true_and]
      omega
    · simp only [forall_mem_cons, not_mem_nil, false_implies, implies_true, and_true,
        valueAt]
      exact ⟨⟨k - 1, if_pos (by omega)⟩, ⟨k, by simp⟩,
        ⟨k + 1, by rw [if_neg (by omega), if_neg (by omega)]⟩⟩

def map (f : α → β) (a : Segmented α) : Segmented β :=
  match a.layout with
  | .whole v => ⟨a.length, .whole (f v)⟩
  | .split k left mid right => ⟨a.length, .split k (f left) (f mid) (f right)⟩

@[simp] lemma valueAt_map (f : α → β) (a : Segmented α) (i : Int) :
    (a.map f).valueAt i = f (a.valueAt i) := by
  obtain ⟨length, _ | _⟩ := a
  · rfl
  · simp only [map, valueAt]
    split
    · rfl
    · split <;> rfl

@[simp] lemma hasIndex_map (f : α → β) (a : Segmented α) : (a.map f).HasIndex = a.HasIndex := by
  obtain ⟨length, _ | _⟩ := a <;> rfl

lemma exists_of_allM_false {f : α → Except Fault Bool} {l : List α} (h : l.allM f = .ok false) :
    ∃ x ∈ l, f x = .ok false := by
  induction l with
  | nil => cases h
  | cons x l ih =>
    rw [List.allM] at h
    obtain ⟨b, hb, h⟩ := bind_eq_ok.1 h
    cases b with
    | false => exact ⟨x, mem_cons_self, hb⟩
    | true =>
      obtain ⟨y, hy, hf⟩ := ih h
      exact ⟨y, mem_cons_of_mem _ hy, hf⟩

lemma all_spec {a : Segmented (Except Fault Bool)} {r : Bool} (h : a.all = .ok r) :
    (r → ∀ i, a.HasIndex i → a.valueAt i = .ok true) ∧
      (r = false → ∃ i, a.HasIndex i ∧ a.valueAt i = .ok false) := by
  obtain ⟨segs, hsegs, h⟩ := bind_eq_ok.1 h
  have hcovers := segments_spec hsegs
  refine ⟨?_, ?_⟩
  · rintro rfl i hi
    obtain ⟨⟨range, test⟩, hp, hpi⟩ := hcovers.exists_segment i hi
    have htest := of_allM_eq_true h _ hp
    dsimp only at hpi htest
    rw [isEmpty_of_contains hpi] at htest
    rw [(hcovers.hasIndex _ hp i hpi).2]
    exact htest
  · rintro rfl
    obtain ⟨p, hp, htest⟩ := exists_of_allM_false h
    dsimp only at htest
    split at htest
    · cases htest
    next hne =>
      obtain ⟨i, hi⟩ := hcovers.exists_contains p hp (by simpa using hne)
      obtain ⟨hindex, hvalue⟩ := hcovers.hasIndex p hp i hi
      exact ⟨i, hindex, hvalue.trans htest⟩

/-! ## Reading -/

section Read

variable {bottom r : α} {join : α → α → Except Fault α} {range : Interval}

lemma read_segments (h : a.read bottom join range = .ok r) :
    ∃ all segs, a.indices = .ok all ∧ a.segments = .ok segs ∧
      (segs.filter fun p => !(p.1.meet (range.meet all)).isEmpty).foldlM
        (fun acc p => join acc p.2) bottom = .ok r := by
  obtain ⟨all, hall, h⟩ := bind_eq_ok.1 h
  obtain ⟨segs, hsegs, h⟩ := bind_eq_ok.1 h
  exact ⟨all, segs, hall, hsegs, h⟩

/-- Reading folds a list of elements that holds the element at each index of the interval, and
nothing else. -/
lemma read_eq (h : a.read bottom join range = .ok r) :
    ∃ l : List α, l.foldlM join bottom = .ok r ∧ (∀ v ∈ l, ∃ i, a.HasIndex i ∧
        range.contains i ∧ a.valueAt i = v) ∧
      ∀ i, a.HasIndex i → range.contains i → a.valueAt i ∈ l := by
  obtain ⟨all, segs, hall, hsegs, h⟩ := read_segments h
  have hcovers := segments_spec hsegs
  refine ⟨(segs.filter fun p => !(p.1.meet (range.meet all)).isEmpty).map (·.2), ?_, ?_, ?_⟩
  · rw [foldlM_map]
    exact h
  · intro v hv
    simp only [mem_map, mem_filter, Bool.not_eq_true'] at hv
    obtain ⟨p, ⟨hp, hne⟩, rfl⟩ := hv
    obtain ⟨i, hi⟩ := exists_contains_meet hne
    rw [contains_meet, contains_meet] at hi
    exact ⟨i, (hcovers.hasIndex p hp i hi.1).1, hi.2.1, (hcovers.hasIndex p hp i hi.1).2⟩
  · intro i hi hrange
    obtain ⟨p, hp, hpi⟩ := hcovers.exists_segment i hi
    rw [(hcovers.hasIndex p hp i hpi).2, mem_map]
    refine ⟨p, List.mem_filter.2 ⟨hp, ?_⟩, rfl⟩
    rw [Bool.not_eq_true', isEmpty_of_contains (n := i)]
    rw [contains_meet, contains_meet, contains_indices hall]
    exact ⟨hpi, hrange, hi⟩

end Read

/-! ## Regions -/

lemma contains_of_mem_someIndex {x y : Interval} (h : i ∈ someIndex (x.meet y)) :
    (x.meet y).contains i := by
  unfold someIndex at h
  split at h
  · cases h
  next hne =>
    obtain ⟨n, hn⟩ := exists_contains_meet (by simpa using hne)
    rw [contains_iff] at hn ⊢
    split at h <;> obtain rfl := List.mem_singleton.1 h
    next l hl =>
      rw [hl] at hn ⊢
      exact ⟨le_rfl, hn.1.trans hn.2⟩
    next l _ hl =>
      rw [hl] at hn ⊢
      exact ⟨hn.1.trans hn.2, le_rfl⟩
    next hl hh =>
      cases hlow : (x.meet y).low with
      | finite l => exact absurd hlow (hl l)
      | posInf => simp [hlow] at hn
      | negInf =>
        cases hhigh : (x.meet y).high with
        | finite l => exact absurd hhigh (hh l)
        | negInf => simp [hhigh] at hn
        | posInf => exact ⟨negInf_le _, le_posInf _⟩

lemma exists_mem_someIndex {x y : Interval} (hx : x.contains i) (hy : y.contains i) :
    ∃ j ∈ someIndex (x.meet y), x.contains j := by
  obtain ⟨j, hj⟩ : ∃ j, j ∈ someIndex (x.meet y) := by
    unfold someIndex
    rw [if_neg (by simp [isEmpty_of_contains (contains_meet.2 ⟨hx, hy⟩)])]
    split <;> exact ⟨_, mem_singleton_self _⟩
  exact ⟨j, hj, (contains_meet.1 (contains_of_mem_someIndex hj)).1⟩

section RegionsAfter

variable {all : Interval} {prev : Option Int} {p : Int} {points l : List Int}

lemma regionsAfter_nil (h : regionsAfter all prev [] = .ok l) :
    ∃ tail : Interval, l = someIndex (tail.meet all) ∧
      ∀ i, tail.contains i ↔ ∀ q, prev = some q → q < i := by
  unfold regionsAfter at h
  cases prev with
  | none =>
    cases h
    exact ⟨.top, rfl, fun i => by simp [contains_top]⟩
  | some q =>
    obtain ⟨tail, htail, h⟩ := bind_eq_ok.1 h
    cases h
    exact ⟨tail, rfl, fun i => by simp [contains_above htail]⟩

lemma regionsAfter_cons (h : regionsAfter all prev (p :: points) = .ok l) :
    ∃ (gap : Interval) (rest : List Int), regionsAfter all (some p) points = .ok rest ∧
      l = someIndex (gap.meet all) ++ someIndex ((constant p).meet all) ++ rest ∧
      ∀ i, gap.contains i ↔ (∀ q, prev = some q → q < i) ∧ i < p := by
  unfold regionsAfter at h
  cases prev with
  | none =>
    obtain ⟨gap, hgap, h⟩ := bind_eq_ok.1 h
    obtain ⟨rest, hrest, h⟩ := bind_eq_ok.1 h
    cases h
    exact ⟨gap, rest, hrest, rfl, fun i => by simp [contains_below hgap]⟩
  | some q =>
    obtain ⟨low, hlow, h⟩ := bind_eq_ok.1 h
    obtain ⟨high, hhigh, h⟩ := bind_eq_ok.1 h
    obtain ⟨gap, hgap, h⟩ := bind_eq_ok.1 h
    obtain ⟨rest, hrest, h⟩ := bind_eq_ok.1 h
    cases hgap
    cases h
    have hlow := eq_of_add hlow
    have hhigh := eq_of_sub hhigh
    refine ⟨_, rest, hrest, rfl, fun i => ?_⟩
    simp only [range, contains_between, finite_le_finite, Option.some.injEq, forall_eq']
    omega

lemma mem_regionsAfter (h : regionsAfter all prev points = .ok l) (hi : i ∈ l) :
    all.contains i := by
  induction points generalizing prev l with
  | nil =>
    obtain ⟨tail, rfl, -⟩ := regionsAfter_nil h
    exact (contains_meet.1 (contains_of_mem_someIndex hi)).2
  | cons p points ih =>
    obtain ⟨gap, rest, hrest, rfl, -⟩ := regionsAfter_cons h
    simp only [mem_append] at hi
    rcases hi with (hi | hi) | hi
    · exact (contains_meet.1 (contains_of_mem_someIndex hi)).2
    · exact (contains_meet.1 (contains_of_mem_someIndex hi)).2
    · exact ih hrest hi

/-- Each index after `prev` has a representative on the same side of every split point. -/
lemma exists_mem_regionsAfter (h : regionsAfter all prev points = .ok l)
    (hsorted : points.Pairwise (· < ·)) (hi : all.contains i)
    (hprev : ∀ q, prev = some q → q < i ∧ ∀ p ∈ points, q < p) :
    ∃ j ∈ l, (∀ q, prev = some q → q < j) ∧ ∀ p ∈ points, (j < p ↔ i < p) ∧ (j = p ↔ i = p) := by
  induction points generalizing prev l with
  | nil =>
    obtain ⟨tail, rfl, htail⟩ := regionsAfter_nil h
    obtain ⟨j, hj, hjtail⟩ := exists_mem_someIndex ((htail i).2 fun q hq => (hprev q hq).1) hi
    exact ⟨j, hj, (htail j).1 hjtail, by simp⟩
  | cons p points ih =>
    obtain ⟨gap, rest, hrest, rfl, hgap⟩ := regionsAfter_cons h
    obtain ⟨hfirst, hsorted⟩ := List.pairwise_cons.1 hsorted
    rcases lt_trichotomy i p with hip | rfl | hip
    · obtain ⟨j, hj, hjgap⟩ := exists_mem_someIndex
        ((hgap i).2 ⟨fun q hq => (hprev q hq).1, hip⟩) hi
      obtain ⟨hjprev, hjp⟩ := (hgap j).1 hjgap
      refine ⟨j, mem_append_left _ (mem_append_left _ hj), hjprev, fun p' hp' => ?_⟩
      have hle : p ≤ p' := (List.mem_cons.1 hp').elim (fun h => h.ge) fun h => (hfirst p' h).le
      omega
    · obtain ⟨j, hj, hji⟩ := exists_mem_someIndex (contains_constant.2 rfl) hi
      obtain rfl := contains_constant.1 hji
      exact ⟨j, mem_append_left _ (mem_append_right _ hj), fun q hq => (hprev q hq).1,
        fun p' _ => ⟨Iff.rfl, Iff.rfl⟩⟩
    · obtain ⟨j, hj, hpj, hsame⟩ := ih hrest hsorted (by simpa [hip] using hfirst)
      have hpj : p < j := hpj p rfl
      refine ⟨j, mem_append_right _ hj, fun q hq => ?_, List.forall_mem_cons.2 ⟨?_, hsame⟩⟩
      · exact ((hprev q hq).2 p mem_cons_self).trans hpj
      · omega

end RegionsAfter

lemma hasIndex_of_mem_regions {l : List Int} (h : a.regions b = .ok l) (hi : i ∈ l) :
    a.HasIndex i := by
  obtain ⟨all, hall, h⟩ := bind_eq_ok.1 h
  exact (contains_indices hall).1 (mem_regionsAfter h hi)

lemma splits_sorted (a : Segmented α) (b : Segmented β) : (a.splits b).Pairwise (· < ·) := by
  obtain ⟨la, _ | _⟩ := a <;> obtain ⟨lb, _ | _⟩ := b <;> simp only [splits]
  case split.split => split_ifs <;> simp <;> omega
  all_goals simp

lemma valueAt_congr {j : Int} (h : ∀ k ∈ a.splits b, (j < k ↔ i < k) ∧ (j = k ↔ i = k)) :
    a.valueAt j = a.valueAt i ∧ b.valueAt j = b.valueAt i := by
  obtain ⟨la, _ | _⟩ := a <;> obtain ⟨lb, _ | _⟩ := b <;> simp only [splits] at h <;>
    simp only [valueAt]
  case split.split => split_ifs at h <;> simp_all
  all_goals simp_all

/-- Each index has a representative where both arrays have the same elements. -/
lemma exists_mem_regions {l : List Int} (h : a.regions b = .ok l) (hi : a.HasIndex i) :
    ∃ j ∈ l, a.valueAt j = a.valueAt i ∧ b.valueAt j = b.valueAt i := by
  obtain ⟨all, hall, h⟩ := bind_eq_ok.1 h
  obtain ⟨j, hj, -, hsame⟩ := exists_mem_regionsAfter h (splits_sorted a b)
    ((contains_indices hall).2 hi) (by simp)
  exact ⟨j, hj, valueAt_congr hsame⟩

/-- Comparison of the representatives is comparison at every index. -/
lemma le_valueAt {isBottom : Segmented α → Except Fault Bool} {le : α → α → Except Fault Bool}
    {a b : Segmented α} (hlength : b.length = a.length)
    (h : Segmented.le isBottom le a b = .ok true) (hi : a.HasIndex i) :
    le (a.valueAt i) (b.valueAt i) = .ok true := by
  unfold Segmented.le at h
  rw [hlength, bne_self_eq_false, Bool.and_false] at h
  obtain ⟨regions, hregions, h⟩ := bind_eq_ok.1 h
  obtain ⟨j, hj, hja, hjb⟩ := exists_mem_regions hregions hi
  rw [← hja, ← hjb]
  exact of_allM_eq_true h j hj

/-! ## Combining -/

section Combine

variable {bottom : α} {join f : α → α → Except Fault α} {a b c : Segmented α} {u : α}

/-- `u` combines what two arrays hold at the indices of an interval. -/
def Reads (bottom : α) (join f : α → α → Except Fault α) (a b : Segmented α) (range : Interval)
    (u : α) : Prop :=
  ∃ x y, a.read bottom join range = .ok x ∧ b.read bottom join range = .ok y ∧ f x y = .ok u

/-- What two arrays are combined to. -/
def Combined (bottom : α) (join f : α → α → Except Fault α) (a b c : Segmented α) : Prop :=
  c.length = (if a.length = b.length then a.length else none) ∧
    ((∃ v w u, a.layout = .whole v ∧ b.layout = .whole w ∧ f v w = .ok u ∧ c.layout = .whole u) ∨
      ∃ k low high left mid right, (a.splits b).head? = some k ∧ below k = .ok low ∧
        above k = .ok high ∧ Reads bottom join f a b low left ∧
        f (a.valueAt k) (b.valueAt k) = .ok mid ∧ Reads bottom join f a b high right ∧
        c.layout = .split k left mid right)

lemma combine_cases (h : combine bottom join f a b = .ok c) : Combined bottom join f a b c := by
  unfold combine at h
  dsimp only at h
  split at h
  next hnil =>
    obtain ⟨u, hu, h⟩ := bind_eq_ok.1 h
    cases h
    refine ⟨rfl, .inl ?_⟩
    obtain ⟨la, _ | _⟩ := a <;> obtain ⟨lb, _ | _⟩ := b
    · exact ⟨_, _, u, rfl, rfl, hu, rfl⟩
    all_goals grind [splits]
  next k points hcons =>
    obtain ⟨low, hlow, h⟩ := bind_eq_ok.1 h
    obtain ⟨x, hx, h⟩ := bind_eq_ok.1 h
    obtain ⟨y, hy, h⟩ := bind_eq_ok.1 h
    obtain ⟨left, hleft, h⟩ := bind_eq_ok.1 h
    obtain ⟨mid, hmid, h⟩ := bind_eq_ok.1 h
    obtain ⟨high, hhigh, h⟩ := bind_eq_ok.1 h
    obtain ⟨x', hx', h⟩ := bind_eq_ok.1 h
    obtain ⟨y', hy', h⟩ := bind_eq_ok.1 h
    obtain ⟨right, hright, h⟩ := bind_eq_ok.1 h
    cases h
    exact ⟨rfl, .inr ⟨k, low, high, left, mid, right, by simp [hcons], hlow, hhigh,
      ⟨x, y, hx, hy, hleft⟩, hmid, ⟨x', y', hx', hy', hright⟩, rfl⟩⟩

lemma combine_valueAt (h : combine bottom join f a b = .ok c) (i : Int) :
    f (a.valueAt i) (b.valueAt i) = .ok (c.valueAt i) ∨
      ∃ range, range.contains i ∧ Reads bottom join f a b range (c.valueAt i) := by
  rcases (combine_cases h).2 with ⟨v, w, u, ha, hb, hu, hc⟩ |
    ⟨k, low, high, left, mid, right, -, hlow, hhigh, hleft, hmid, hright, hc⟩
  · simp only [valueAt, ha, hb, hc]
    exact .inl hu
  · have hat : c.valueAt i = if i < k then left else if i = k then mid else right := by
      simp only [valueAt, hc]
    rw [hat]
    rcases lt_trichotomy i k with hi | rfl | hi
    · rw [if_pos hi]
      exact .inr ⟨low, (contains_below hlow).2 hi, hleft⟩
    · rw [if_neg (lt_irrefl i), if_pos rfl]
      exact .inl hmid
    · rw [if_neg (by omega), if_neg (by omega)]
      exact .inr ⟨high, (contains_above hhigh).2 hi, hright⟩

lemma splits_comm (a b : Segmented α) : a.splits b = b.splits a := by
  obtain ⟨la, _ | _⟩ := a <;> obtain ⟨lb, _ | _⟩ := b <;> try rfl
  simp only [splits]
  split_ifs <;> first | rfl | omega | simp_all

/-- Two arrays that are split at one place are widened segment by segment, and others are widened as
wholes; an array without elements takes over the other. -/
lemma widen_cases {isBottom : Segmented α → Except Fault Bool} {widen : α → α → Except Fault α}
    (h : Segmented.widen bottom isBottom join widen a b = .ok c) :
    ((a.sameSplit? b = some true ∨ isBottom a = .ok true) ∧ combine bottom join widen a b = .ok c) ∨
      ∃ x y z u, a.read bottom join .top = .ok x ∧ b.read bottom join .top = .ok y ∧
        join x y = .ok z ∧ widen x z = .ok u ∧ c = uniform a.length u := by
  unfold Segmented.widen at h
  dsimp only at h
  obtain ⟨same, hsame, h⟩ : ∃ same : Bool, (a.sameSplit? b = some same ∨ isBottom a = .ok same) ∧
      (if same = true then combine bottom join widen a b else do
        let before ← a.read bottom join .top
        let after ← b.read bottom join .top
        let r ← join before after
        let u ← widen before r
        pure (uniform a.length u)) = .ok c := by
    split at h
    next same hsame => exact ⟨same, .inl hsame, h⟩
    next =>
      obtain ⟨same, hbottom, h⟩ := bind_eq_ok.1 h
      exact ⟨same, .inr hbottom, h⟩
  split at h
  next htrue => exact .inl ⟨htrue ▸ hsame, h⟩
  next =>
    obtain ⟨x, hx, h⟩ := bind_eq_ok.1 h
    obtain ⟨y, hy, h⟩ := bind_eq_ok.1 h
    obtain ⟨z, hz, h⟩ := bind_eq_ok.1 h
    obtain ⟨u, hu, h⟩ := bind_eq_ok.1 h
    cases h
    exact .inr ⟨x, y, z, u, hx, hy, hz, hu, rfl⟩

end Combine

/-! ## Upper bounds -/

section Bounds

variable {P : α → Prop} {R : α → α → Prop} {bottom r : α} {join f : α → α → Except Fault α}
  {a b c : Segmented α} {range : Interval} {isBottom : Segmented α → Except Fault Bool}

/-- An operation on elements of a class whose results are in that class and above both operands. -/
def Bounds (P : α → Prop) (R : α → α → Prop) (f : α → α → Except Fault α) : Prop :=
  ∀ ⦃v w u : α⦄, P v → P w → f v w = .ok u → P u ∧ R v u ∧ R w u

variable (htrans : ∀ ⦃u v w⦄, R u v → P v → R v w → R u w) (hbottom : P bottom)
  (hjoin : Bounds P R join) (ha : ∀ i, P (a.valueAt i))
include htrans hbottom hjoin ha

lemma read_bounds (h : a.read bottom join range = .ok r) :
    P r ∧ ∀ i, a.HasIndex i → range.contains i → R (a.valueAt i) r := by
  obtain ⟨l, hfold, hmem, hall⟩ := read_eq h
  have hvisit := foldlM_visit (P := P) (R := R) (fun s x s' hx hs hstep => ?_) hbottom hfold
  · exact ⟨hvisit.1, fun i hi hrange => hvisit.2 _ (hall i hi hrange)⟩
  · obtain ⟨i, -, -, rfl⟩ := hmem x hx
    obtain ⟨hs', hle, hle'⟩ := hjoin hs (ha i) hstep
    exact ⟨hs', hle', fun y _ hy => htrans hy hs hle⟩

variable (hf : Bounds P R f) (hb : ∀ i, P (b.valueAt i))
include hf hb

lemma combine_bounds (h : combine bottom join f a b = .ok c) (i : Int) :
    P (c.valueAt i) ∧ (a.HasIndex i → R (a.valueAt i) (c.valueAt i)) ∧
      (b.HasIndex i → R (b.valueAt i) (c.valueAt i)) := by
  rcases combine_valueAt h i with hat | ⟨range, hrange, x, y, hx, hy, hat⟩
  · obtain ⟨hc, hle, hle'⟩ := hf (ha i) (hb i) hat
    exact ⟨hc, fun _ => hle, fun _ => hle'⟩
  · obtain ⟨hxs, hxa⟩ := read_bounds htrans hbottom hjoin ha hx
    obtain ⟨hys, hyb⟩ := read_bounds htrans hbottom hjoin hb hy
    obtain ⟨hc, hle, hle'⟩ := hf hxs hys hat
    exact ⟨hc, fun hi => htrans (hxa i hi hrange) hxs hle,
      fun hi => htrans (hyb i hi hrange) hys hle'⟩

/-- Where the splits differ, every element of either array is below what is read, and that is below
the only element. -/
lemma widen_bounds (h : Segmented.widen bottom isBottom join f a b = .ok c) (i : Int) :
    P (c.valueAt i) ∧ (a.HasIndex i → R (a.valueAt i) (c.valueAt i)) ∧
      (b.HasIndex i → R (b.valueAt i) (c.valueAt i)) := by
  rcases widen_cases h with ⟨-, h⟩ | ⟨x, y, z, u, hx, hy, hz, hu, rfl⟩
  · exact combine_bounds htrans hbottom hjoin ha hf hb h i
  · obtain ⟨hxs, hxa⟩ := read_bounds htrans hbottom hjoin ha hx
    obtain ⟨hys, hyb⟩ := read_bounds htrans hbottom hjoin hb hy
    obtain ⟨hzs, -, hyz⟩ := hjoin hxs hys hz
    obtain ⟨hus, hxu, hzu⟩ := hf hxs hzs hu
    exact ⟨hus, fun hi => htrans (hxa i hi contains_top) hxs hxu,
      fun hi => htrans (htrans (hyb i hi contains_top) hys hyz) hzs hzu⟩

end Bounds

lemma length_combine {bottom : α} {join f : α → α → Except Fault α} {a b c : Segmented α}
    (hlength : b.length = a.length) (h : combine bottom join f a b = .ok c) :
    c.length = a.length := by
  rw [(combine_cases h).1, hlength, if_pos rfl]

lemma length_widen {bottom : α} {isBottom : Segmented α → Except Fault Bool}
    {join f : α → α → Except Fault α} {a b c : Segmented α} (hlength : b.length = a.length)
    (h : Segmented.widen bottom isBottom join f a b = .ok c) : c.length = a.length := by
  rcases widen_cases h with ⟨-, h⟩ | ⟨x, y, z, u, -, -, -, -, rfl⟩
  · exact length_combine hlength h
  · rfl

end Segmented
end StaticAnalysis
