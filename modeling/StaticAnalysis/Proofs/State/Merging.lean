import StaticAnalysis.Proofs.Memory.Alike
import StaticAnalysis.Proofs.Relation.Order
import StaticAnalysis.Proofs.State.Order

/-!
# Joins and widenings of states

States with values of every kind and with relations.  If the values of each cell have one shape and
the relations are recognised, then a join and a widening by a join are above both states, and
joining in either order gives states that are below each other (`le_merge`).
-/

namespace StaticAnalysis

open Fault SortedMap SortedSet Value IntVal

namespace State

variable {T : Set Target} {f : Value → Value → Except Fault Value}
  {g : Relation → Relation → Relation} {s t u r : State}

/-! ## Merging -/

/-- The values of each cell have one shape, and relations are recognised. -/
structure Shaped (T : Set Target) (σ : Cell → List (Option Int)) (s : State) : Prop where
  cells : Fits T σ s.cells
  kept : Fits T (fun k => σ k.cell) s.kept
  copies : CopiesFit T σ s.copies
  relation : s.reachable = true → s.relation.Recognised

variable {σ : Cell → List (Option Int)}

lemma Shaped.storeFits (hs : s.Shaped T σ) : s.StoreFits T σ := ⟨hs.cells, hs.kept, hs.copies⟩

lemma Merged.shaped (hf : ∀ σ, Value.Bounds T σ f) (hs : s.Shaped T σ) (ht : t.Shaped T σ)
    (h : Merged f g s t r) (hrel : r.relation.Recognised) :
    r.Shaped T σ ∧ StoreUnder s r ∧ StoreUnder t r := by
  obtain ⟨hr, hsr, htr⟩ := h.bounds (fun _ => hf _) hs.storeFits ht.storeFits
  exact ⟨⟨hr.cells, hr.kept, hr.copies, fun _ => hrel⟩, hsr, htr⟩

/-! ## Joining in either order -/

lemma not_void_of_isTop {v : Value} (h : v.isTop = .ok true) (harray : v.isArray = false) :
    ¬ v.Void := by
  cases v with
  | bottom => cases h
  | int a =>
    have htop : a.isTop = true := by injection h
    rintro (_ | hbottom)
    obtain ⟨⟨low, high⟩, congruence⟩ := a
    simp only [IntVal.isTop, Interval.isTop, Bool.and_eq_true, beq_iff_eq] at htop
    obtain ⟨⟨rfl, rfl⟩, hc⟩ := htop
    cases congruence with
    | bottom => cases hc
    | residue r k => cases hbottom
  | addr a =>
    have htop : a.isAny = true := by injection h
    rintro (_ | _ | hbottom)
    cases a with
    | any => cases hbottom
    | of targets => cases htop
  | array a => cases harray
  | top => rintro (_ | _)

lemma exists_mergeValues {κ : Type} [Ord κ] [Std.TransOrd κ] [Std.LawfulEqOrd κ]
    {m₁ m₂ : SortedMap κ Value} {keepTop : κ → Bool} {m : SortedMap κ Value} {k : κ} {v w : Value}
    (h : mergeValues f keepTop m₁ m₂ = .ok m) (hv : m₁.get? k = some v) (hw : m₂.get? k = some w) :
    ∃ u b, f v w = .ok u ∧ u.isTop = .ok b ∧
      m.get? k = if !b || u.isArray || keepTop k then some u else none := by
  rcases get?_filterMapM h k with ⟨hnone, -⟩ | ⟨v', hv', hf⟩
  · rw [hv] at hnone
    cases hnone
  · rw [hv] at hv'
    cases hv'
    rw [hw] at hf
    obtain ⟨u, hu, hf⟩ := bind_eq_ok.1 hf
    obtain ⟨b, hb, hf⟩ := bind_eq_ok.1 hf
    injection hf with hf
    exact ⟨u, b, hu, hb, hf.symm⟩

lemma valuesUnder_comm {κ : Type} [Ord κ] [Std.TransOrd κ] [Std.LawfulEqOrd κ]
    {keepTop : κ → Bool} {m₁ m₂ m m' : SortedMap κ Value}
    (h : mergeValues Value.join keepTop m₁ m₂ = .ok m)
    (h' : mergeValues Value.join keepTop m₂ m₁ = .ok m') : ValuesUnder m m' := by
  intro k u' hu'
  obtain ⟨w, v, hw, hv, hwv⟩ := get?_mergeValues h' hu'
  obtain ⟨u, b, hvw, hb, hget⟩ := exists_mergeValues h hv hw
  obtain ⟨u'', b', hwv', hb', hget'⟩ := exists_mergeValues h' hw hv
  rw [hwv] at hwv'
  cases hwv'
  rw [hu'] at hget'
  have halike := alike_join_comm hvw hwv
  refine ⟨u, hget.trans (if_pos ?_), below_of_alike halike⟩
  by_contra hdrop
  simp only [Bool.or_eq_true, Bool.not_eq_true', not_or, Bool.not_eq_true, Bool.not_eq_false]
    at hdrop
  obtain ⟨⟨rfl, harray⟩, hkeep⟩ := hdrop
  rcases halike.eq_or_lift (not_void_of_isTop hb harray) with ⟨rfl, -⟩ | ⟨a, a', rfl, -⟩
  · rw [hb] at hb'
    cases hb'
    rw [if_neg (by simp [harray, hkeep])] at hget'
    cases hget'
  · cases harray

/-- Copies with alike values that are equally exact. -/
def CopyAlike : Option PrivateCopy → Option PrivateCopy → Prop
  | some p, some q => p.value.Alike q.value ∧ p.exact = q.exact
  | none, none => True
  | _, _ => False

lemma CopyAlike.under {o o' : Option PrivateCopy} (h : CopyAlike o o') : CopyUnder o o' := by
  cases o with
  | none =>
    cases o' with
    | none => trivial
    | some q => exact h.elim
  | some p =>
    cases o' with
    | none => exact h.elim
    | some q => exact ⟨below_of_alike h.1, fun hexact => h.2.trans hexact⟩

lemma copyAlike_mergeCopies {m₁ m₂ m m' : SortedMap Cell PrivateCopy}
    (h : mergeCopies Value.join m₁ m₂ = .ok m) (h' : mergeCopies Value.join m₂ m₁ = .ok m')
    (c : Cell) : CopyAlike (m.get? c) (m'.get? c) := by
  have hc := get?_mergeCopies h c
  have hc' := get?_mergeCopies h' c
  revert hc hc'
  cases m₁.get? c with
  | none =>
    cases m₂.get? c with
    | none =>
      intro hc hc'
      rw [hc, hc']
      trivial
    | some q =>
      intro hc hc'
      rw [hc, hc']
      exact ⟨alike_refl _, rfl⟩
  | some p =>
    cases m₂.get? c with
    | none =>
      intro hc hc'
      rw [hc, hc']
      exact ⟨alike_refl _, rfl⟩
    | some q =>
      rintro ⟨u, hu, hc⟩ ⟨u', hu', hc'⟩
      rw [hc, hc']
      exact ⟨alike_join_comm hu hu', Bool.and_comm _ _⟩

lemma copyAlike_addGlobals {single : State} {m₁ m₂ m m' : SortedMap Cell PrivateCopy}
    (hm : ∀ c, CopyAlike (m₁.get? c) (m₂.get? c)) (h : addGlobals Value.join single m₁ = .ok m)
    (h' : addGlobals Value.join single m₂ = .ok m') (c : Cell) :
    CopyAlike (m.get? c) (m'.get? c) := by
  refine foldlM_induct₂ (R := fun m m' : SortedMap Cell PrivateCopy =>
    ∀ c, CopyAlike (m.get? c) (m'.get? c)) ?_ hm h h' c
  rintro m m' ⟨d, v⟩ n n' hmm' hstep hstep' c
  obtain ⟨u, hu, hstep⟩ := bind_eq_ok.1 hstep
  obtain ⟨u', hu', hstep'⟩ := bind_eq_ok.1 hstep'
  cases hstep
  cases hstep'
  have hold : Value.Alike ((m.get? d).elim .bottom (·.value))
      ((m'.get? d).elim .bottom (·.value)) := by
    have hd := hmm' d
    revert hd
    cases m.get? d <;> cases m'.get? d <;> intro hd
    · exact alike_refl _
    · exact hd.elim
    · exact hd.elim
    · exact hd.1
  rw [get?_insert, get?_insert]
  split
  · exact ⟨alike_join hold (alike_refl v) hu hu', rfl⟩
  · exact hmm' c

lemma Merged.storeUnder_comm {j j' : State} (h : Merged Value.join g s t j)
    (h' : Merged Value.join g t s j') : StoreUnder j j' := by
  obtain ⟨m, hm, hcopies⟩ := h.copies
  obtain ⟨m', hm', hcopies'⟩ := h'.copies
  have halike := copyAlike_mergeCopies hm hm'
  refine ⟨valuesUnder_comm h.cells h'.cells, valuesUnder_comm h.kept h'.kept,
    fun c => ?_, ?_, ?_, ?_, ?_, ?_⟩
  · refine CopyAlike.under ?_
    by_cases hsame : s.multithreaded = t.multithreaded
    · rw [if_pos hsame] at hcopies
      rw [if_pos hsame.symm] at hcopies'
      cases hcopies
      cases hcopies'
      exact halike c
    · rw [if_neg hsame] at hcopies
      rw [if_neg (Ne.symm hsame)] at hcopies'
      have hsingle : (if t.multithreaded = true then s else t) =
          if s.multithreaded = true then t else s := by
        cases hs : s.multithreaded <;> cases ht : t.multithreaded <;> simp_all
      rw [hsingle] at hcopies'
      exact copyAlike_addGlobals halike hcopies hcopies' c
  · rw [h.locks, h'.locks]
    exact LockSet.le_join_comm _ _
  · rw [h.multithreaded, h'.multithreaded, Bool.or_comm]
    exact id
  · rw [h.created, h'.created, union_comm]
    exact fun _ => id
  · intro i
    rw [h.joined, h'.joined, mem_inter, mem_inter]
    exact And.symm
  · rw [h.escaped, h'.escaped, union_comm]
    exact fun _ => id

/-! ## Upper bounds -/

/-- One state is below another: unless it is empty, so are its components. -/
def Under (s t : State) : Prop :=
  s.isBottom = false → t.isBottom = false ∧ s.relation.le t.relation = true ∧ StoreUnder s t

lemma under_of_unreachable (h : s.reachable = false) : Under s t := fun hs => by
  simp [isBottom, h] at hs

lemma under_of_relation (hs : s.reachable) (ht : t.reachable)
    (hrel : Relation.Under s.relation t.relation) (hstore : StoreUnder s t) : Under s t := by
  intro hsb
  simp only [isBottom, hs, ht, Bool.not_true, Bool.false_or] at hsb ⊢
  obtain ⟨htb, hle⟩ := hrel hsb
  exact ⟨htb, hle, hstore⟩

lemma Shaped.under_self (hs : s.Shaped T σ) : Under s s := by
  cases hr : s.reachable with
  | false => exact under_of_unreachable hr
  | true => exact under_of_relation hr hr (hs.relation hr).under_self (.refl s)

section Bounds

variable (hT : none ∈ T) (hs : s.Shaped T σ) (ht : t.Shaped T σ)
  (hkind : s.reachable = true → t.reachable = true → s.relation.kind = t.relation.kind)
include hT hs ht hkind

lemma join_spec {j : State} (h : s.join t = .ok j) : j.Shaped T σ ∧ Under s j ∧ Under t j := by
  rcases merge_cases h with ⟨hsr, rfl⟩ | ⟨-, htr, rfl⟩ | ⟨hsr, htr, hm⟩
  · exact ⟨ht, under_of_unreachable hsr, ht.under_self⟩
  · exact ⟨hs, hs.under_self, under_of_unreachable htr⟩
  · have hk := Relation.sameKind_iff.2 (hkind hsr htr)
    have hrs := hs.relation hsr
    have hrt := ht.relation htr
    obtain ⟨hj, hsj, htj⟩ := hm.shaped (bounds_join hT) hs ht (hm.relation ▸ hrs.join hrt hk)
    exact ⟨hj, under_of_relation hsr hm.reachable (hm.relation ▸ hrs.under_join_left hrt hk) hsj,
      under_of_relation htr hm.reachable (hm.relation ▸ hrs.under_join_right hrt hk) htj⟩

lemma widen_join_spec {j w : State} (hj : s.join t = .ok j) (hw : s.widen j = .ok w) :
    w.Shaped T σ ∧ Under s w ∧ Under t w := by
  rcases merge_cases hj with ⟨hsr, rfl⟩ | ⟨hsr, htr, rfl⟩ | ⟨hsr, htr, hm⟩
  · obtain ⟨-, rfl⟩ := (merge_cases hw).resolve_right (by simp [hsr])
    exact ⟨ht, under_of_unreachable hsr, ht.under_self⟩
  · obtain ⟨-, -, hm⟩ := ((merge_cases hw).resolve_left (by simp [hsr])).resolve_left
      (by simp [hsr])
    have hrs := hs.relation hsr
    obtain ⟨hrw, hle⟩ := hrs.widen_spec hrs (.refl _) id
    rw [← hm.relation] at hrw hle
    obtain ⟨hw, hsw, -⟩ := hm.shaped (bounds_widen hT) hs hs hrw
    exact ⟨hw, under_of_relation hsr hm.reachable hle hsw, under_of_unreachable htr⟩
  · obtain ⟨hjs, -, -⟩ := join_spec hT hs ht hkind hj
    obtain ⟨-, -, hm'⟩ := ((merge_cases hw).resolve_left (by simp [hsr])).resolve_left
      (by simp [hm.reachable])
    have hk := Relation.sameKind_iff.2 (hkind hsr htr)
    have hrs := hs.relation hsr
    have hrt := ht.relation htr
    have hrj := hrs.join hrt hk
    obtain ⟨hrw, hle⟩ := hrs.widen_spec hrj hk.join fun h => (hrs.under_join_left hrt hk h).1
    have hle' := hrs.under_widen_right hrt hk
    rw [← hm.relation, ← hm'.relation] at hrw hle hle'
    obtain ⟨-, -, htj⟩ := hm.shaped (bounds_join hT) hs ht (hm.relation ▸ hrj)
    obtain ⟨hw, hsw, hjw⟩ := hm'.shaped (bounds_widen hT) hs hjs hrw
    exact ⟨hw, under_of_relation hsr hm'.reachable hle hsw,
      under_of_relation htr hm'.reachable hle' (htj.trans hjs.storeFits hjw)⟩

lemma under_join_comm {j j' : State} (h : s.join t = .ok j) (h' : t.join s = .ok j') :
    Under j j' := by
  obtain ⟨-, hsj', htj'⟩ := join_spec hT ht hs (fun htr hsr => (hkind hsr htr).symm) h'
  rcases merge_cases h with ⟨-, rfl⟩ | ⟨-, -, rfl⟩ | ⟨hsr, htr, hm⟩
  · exact hsj'
  · exact htj'
  · obtain ⟨-, -, hm'⟩ := ((merge_cases h').resolve_left (by simp [htr])).resolve_left
      (by simp [hsr])
    have hk := Relation.sameKind_iff.2 (hkind hsr htr)
    refine under_of_relation hm.reachable hm'.reachable ?_ (hm.storeUnder_comm hm')
    rw [hm.relation, hm'.relation]
    exact (hs.relation hsr).under_join_comm (ht.relation htr) hk

end Bounds

/-- **Upper bounds.**  If the values of each cell have one shape and no relation is empty without
being found to be, joins and widenings by joins are above both states, and the order of a join does
not matter. -/
theorem le_join_and_widen {s t j : State} (hs : s.Shaped Set.univ σ) (ht : t.Shaped Set.univ σ)
    (hkind : s.reachable = true → t.reachable = true → s.relation.kind = t.relation.kind)
    (hj : s.join t = .ok j) :
    s.le j ≠ .ok false ∧ t.le j ≠ .ok false ∧
      (∀ w, s.widen j = .ok w → s.le w ≠ .ok false ∧ t.le w ≠ .ok false) ∧
      ∀ j', t.join s = .ok j' → j.le j' ≠ .ok false ∧ j'.le j ≠ .ok false := by
  have hT : none ∈ (Set.univ : Set Target) := Set.mem_univ _
  have hkind' := fun htr hsr => (hkind hsr htr).symm
  obtain ⟨-, hsj, htj⟩ := join_spec hT hs ht hkind hj
  refine ⟨le_ne_false hsj, le_ne_false htj, fun w hw => ?_, fun j' hj' => ?_⟩
  · obtain ⟨-, hsw, htw⟩ := widen_join_spec hT hs ht hkind hj hw
    exact ⟨le_ne_false hsw, le_ne_false htw⟩
  · exact ⟨le_ne_false (under_join_comm hT hs ht hkind hj hj'),
      le_ne_false (under_join_comm hT ht hs hkind' hj' hj)⟩

/-- A thread that is alone: the global `a` has its first element written, and `p` is null. -/
def alone : State :=
  { unknown .octagon with
    cells := ⟨[(.ofLocal "main" "p", .ofInt 0),
      (.ofGlobal "a", .array ⟨some 2, .split 0 .bottom (.ofInt 1) (.ofInt 7)⟩)], by decide⟩
    relation := .octagon ((Octagon.unconstrained (.ofList ["x", "y"])).constrain 2 0 3) }

/-- One of several threads, which holds a copy of `a` with the second element written. -/
def sharing : State :=
  { unknown .octagon with
    multithreaded := true
    cells := ⟨[(.ofLocal "main" "p", .addr (.of (.singleton (some (.ofGlobal "a")))))], by decide⟩
    copies := ⟨[(.ofGlobal "a",
      ⟨.array ⟨some 2, .split 1 (.ofInt 4) (.ofInt 2) .bottom⟩, true⟩)], by decide⟩
    relation := .octagon ((Octagon.unconstrained (.ofList ["x", "y"])).constrain 1 0 (-10)) }

/-- The array `a` has two elements. -/
def lengths (c : Cell) : List (Option Int) := if c = .ofGlobal "a" then [some 2] else []

lemma shaped_alone (T : Set Target) : alone.Shaped T lengths where
  cells c v h := by
    have hmem := get?_eq_some_iff.1 h
    simp only [alone, List.mem_cons, Prod.mk.injEq, List.not_mem_nil, or_false] at hmem
    rcases hmem with ⟨rfl, rfl⟩ | ⟨rfl, rfl⟩
    · exact .int (tight_constant (by decide))
    · refine .array rfl fun i => ?_
      simp only [Segmented.valueAt]
      split_ifs
      exacts [.bottom, .int (tight_constant (by decide)),
        .int (tight_constant (by decide))]
  kept k v h := by simp [alone, unknown] at h
  copies c p h := by simp [alone, unknown] at h
  relation _ := by
    have hsquare : Octagon.Square
        ((Octagon.unconstrained (.ofList ["x", "y"])).constrain 2 0 3) :=
      ⟨by decide +kernel, by decide +kernel⟩
    exact .inr ⟨hsquare, rfl, fun _ => 0, .of_respects hsquare (by decide +kernel)⟩

lemma shaped_sharing (hT : some (.ofGlobal "a") ∈ T) : sharing.Shaped T lengths where
  cells c v h := by
    have hmem := get?_eq_some_iff.1 h
    simp only [sharing, List.mem_singleton, Prod.mk.injEq] at hmem
    obtain ⟨rfl, rfl⟩ := hmem
    exact .addr fun t ht => mem_singleton.1 ht ▸ hT
  kept k v h := by simp [sharing, unknown] at h
  copies c p h := by
    have hmem := get?_eq_some_iff.1 h
    simp only [sharing, List.mem_singleton, Prod.mk.injEq] at hmem
    obtain ⟨rfl, rfl⟩ := hmem
    refine .array rfl fun i => ?_
    simp only [Segmented.valueAt]
    split_ifs
    exacts [.int (tight_constant (by decide)), .int (tight_constant (by decide)),
      .bottom]
  relation _ := by
    have hsquare : Octagon.Square
        ((Octagon.unconstrained (.ofList ["x", "y"])).constrain 1 0 (-10)) :=
      ⟨by decide +kernel, by decide +kernel⟩
    exact .inr ⟨hsquare, rfl, fun _ => -5, .of_respects hsquare (by decide +kernel)⟩

/-- The two states meet: `p` becomes the null pointer or the address of `a`, and `a` an inexact copy
of what either thread knows. -/
theorem le_join_and_widen_alone_sharing :
    ∃ j w, alone.join sharing = .ok j ∧ alone.widen j = .ok w ∧ alone.le w = .ok true ∧
      alone.le j ≠ .ok false ∧ sharing.le j ≠ .ok false ∧ sharing.le w ≠ .ok false := by
  have hok : (do
      let j ← alone.join sharing
      alone.le (← alone.widen j)) = .ok true := by
    decide +kernel
  obtain ⟨j, hj, hok⟩ := bind_eq_ok.1 hok
  obtain ⟨w, hw, hle⟩ := bind_eq_ok.1 hok
  obtain ⟨hsj, htj, hwiden, -⟩ :=
    le_join_and_widen (shaped_alone _) (shaped_sharing trivial) (fun _ _ => rfl) hj
  exact ⟨j, w, hj, hw, hle, hsj, htj, (hwiden w hw).2⟩

/-- The octagon `x - y ≤ a`, `y - x ≤ b`. -/
def apart (a b : Int) : State :=
  { unknown .octagon with
    relation := .octagon
      (((Octagon.unconstrained (.ofList ["x", "y"])).constrain 2 0 a).constrain 0 2 b) }

/-- Two octagons without a valuation are not found to be empty, since the sums that show it are too
large for a word, and their join is: it is above neither. -/
theorem join_not_upper_bound :
    (apart (-(2 ^ 62 + 1)) (-(2 ^ 62 + 1))).isBottom = false ∧
      (apart (-(2 ^ 63 - 1)) (-2)).isBottom = false ∧
      (do
        let j ← (apart (-(2 ^ 62 + 1)) (-(2 ^ 62 + 1))).join (apart (-(2 ^ 63 - 1)) (-2))
        let left ← (apart (-(2 ^ 62 + 1)) (-(2 ^ 62 + 1))).le j
        let right ← (apart (-(2 ^ 63 - 1)) (-2)).le j
        return (left, right)) = .ok (false, false) := by
  decide +kernel

end State
end StaticAnalysis
