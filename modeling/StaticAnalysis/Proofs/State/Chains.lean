import StaticAnalysis.Proofs.Memory.Chains
import StaticAnalysis.Proofs.Relation.Chains
import StaticAnalysis.Proofs.State.Merging

/-!
# Widening states comes to rest

A state that is widened again and again by joins with other states over finitely many names comes to
rest.  Cells, kept values, held mutexes and joined threads are only ever removed, copies, created
threads and escaped cells only ever added; the values under each name come to rest by `Value.rests`
and the relations by `Relation.eventually_le`.
-/

namespace StaticAnalysis

open Chain Fault SortedMap SortedSet

open Filter

namespace LockSet

/-- The depth to which a mutex must be held; less than any depth if it need not be. -/
def depth (l : LockSet) (mutex : String) : WithBot ℕ := (l.must.get? mutex).map UInt32.toNat

lemma depth_le {l m : LockSet} (h : l.le m) (mutex : String) : m.depth mutex ≤ l.depth mutex := by
  unfold depth
  cases hd : m.must.get? mutex with
  | none => exact bot_le
  | some d =>
    obtain ⟨e, he, hde⟩ := (le_iff.1 h).1 mutex d hd
    rw [he]
    exact WithBot.coe_le_coe.2 (UInt32.le_iff_toNat_le.1 hde)

lemma eventually_le {l : ℕ → LockSet} {M : Set String} (hM : M.Finite)
    (hmay : ∀ n, ∀ m ∈ (l n).may, m ∈ M) (h : ∀ n, (l n).le (l (n + 1))) :
    ∀ᶠ n in atTop, (l (n + 1)).le (l n) := by
  have hkeys : Antitone fun n => {mutex | mutex ∈ (l n).must.keys} := by
    refine antitone_nat_of_succ_le fun n mutex hm => ?_
    obtain ⟨d, hd⟩ := mem_keys.1 hm
    obtain ⟨e, he, -⟩ := (le_iff.1 (h n)).1 mutex d hd
    exact mem_keys.2 ⟨e, he⟩
  have hmust : ∀ᶠ n in atTop, ∀ mutex ∈ (l 0).must.keys,
      (l (n + 1)).depth mutex = (l n).depth mutex :=
    (eventually_all_finite (l 0).must.keys.finite_toSet).2 fun mutex _ =>
      eventually_eq_of_antitone (x := fun n => (l n).depth mutex) fun n => depth_le (h n) mutex
  have hheld := eventually_subset hM (x := fun n => {m | m ∈ (l n).may}) hmay
    fun n => (le_iff.1 (h n)).2
  filter_upwards [hmust, hheld] with n hn hn'
  refine le_iff.2 ⟨fun mutex d hd => ⟨d, ?_, d.le_refl⟩, hn'⟩
  have hdepth := hn mutex (hkeys (Nat.zero_le n) (mem_keys.2 ⟨d, hd⟩))
  exact (Option.map_injective fun _ _ => UInt32.toNat_inj.1) hdepth ▸ hd

end LockSet

namespace State

variable {T : Set Target}

/-! ## Values and copies -/

section Values

variable {κ : Type} [Ord κ] [Std.TransOrd κ] [Std.LawfulEqOrd κ] {τ : κ → List (Option Int)}
  {keepTop : κ → Bool} {m z : ℕ → SortedMap κ Value}

lemma eventually_valuesUnder (hfinite : T.Finite) (hT : none ∈ T) (hm : ∀ n, Fits T τ (m n))
    (hz : ∀ n, Fits T τ (z n))
    (h : ∀ n, mergeValues Value.widen keepTop (m n) (z n) = .ok (m (n + 1))) :
    ∀ᶠ n in atTop, ValuesUnder (m (n + 1)) (m n) := by
  have hstep : ∀ n k u, (m (n + 1)).get? k = some u →
      ∃ v, (m n).get? k = some v ∧ Value.WidensTo T (τ k) v u := by
    intro n k u hu
    obtain ⟨v, w, hv, hw, hvw⟩ := get?_mergeValues (h n) hu
    exact ⟨v, hv, .inr ⟨_, w, hz n k w hw, hvw⟩⟩
  have hkeys : Antitone fun n => {k | k ∈ (m n).keys} := by
    refine antitone_nat_of_succ_le fun n k hk => ?_
    obtain ⟨u, hu⟩ := mem_keys.1 hk
    obtain ⟨v, hv, -⟩ := hstep n k u hu
    exact mem_keys.2 ⟨v, hv⟩
  -- Each key is dropped at some point, or its value comes to rest.
  have hrest : ∀ᶠ n in atTop, ∀ k ∈ (m 0).keys, ∀ w, (m n).get? k = some w →
      ∃ v, (m (n + 1)).get? k = some v ∧ v.Below w := by
    refine (eventually_all_finite (m 0).keys.finite_toSet).2 fun k _ => ?_
    have hdropped : ∀ n, (m n).get? k = none → (m (n + 1)).get? k = none := fun n hn => by
      cases hu : (m (n + 1)).get? k with
      | none => rfl
      | some u =>
        obtain ⟨v, hv, -⟩ := hstep n k u hu
        rw [hn] at hv
        cases hv
    rcases eventually_or_never hdropped with ⟨N, hN⟩ | hnever
    · exact eventually_of_tail N (.of_forall fun n w hw => by rw [hN n] at hw; cases hw)
    · choose v hv using fun n => Option.ne_none_iff_exists'.1 (hnever n)
      refine (Value.rests hfinite hT (τ k) (fun n => hm n k _ (hv n)) fun n => ?_).mono
        fun n hn w hw => ⟨v (n + 1), hv (n + 1), ?_⟩
      · obtain ⟨v', hv', hwiden⟩ := hstep n k _ (hv (n + 1))
        rw [hv n] at hv'
        cases hv'
        exact hwiden
      · rw [hv n] at hw
        cases hw
        exact hn
  exact hrest.mono fun n hn k w hw => hn k (hkeys (Nat.zero_le n) (mem_keys.2 ⟨w, hw⟩)) w hw

end Values

section Copies

variable {σ : Cell → List (Option Int)} {m z : ℕ → SortedMap Cell PrivateCopy}

/-- One copy of a sequence: it is there for good or never, and its value comes to rest. -/
lemma eventually_copyUnder (hfinite : T.Finite) (hT : none ∈ T) (hm : ∀ n, CopiesFit T σ (m n))
    (hz : ∀ n, CopiesFit T σ (z n)) (hunder : ∀ n, CopiesUnder (m n) (z n))
    (h : ∀ n, mergeCopies Value.widen (m n) (z n) = .ok (m (n + 1))) (c : Cell) :
    ∀ᶠ n in atTop, CopyUnder ((m (n + 1)).get? c) ((m n).get? c) := by
  have hstep : ∀ n p, (m n).get? c = some p → ∃ p', (m (n + 1)).get? c = some p' ∧
      Value.WidensTo T (σ c) p.value p'.value ∧ (p.exact = false → p'.exact = false) := by
    intro n p hp
    have hc := get?_mergeCopies (h n) c
    have hcu := hunder n c
    rw [hp] at hc hcu
    cases hq : (z n).get? c with
    | none =>
      rw [hq] at hcu
      exact hcu.elim
    | some q =>
      rw [hq] at hc
      obtain ⟨u, hu, hc⟩ := hc
      exact ⟨_, hc, .inr ⟨_, q.value, hz n c q hq, hu⟩, fun hexact => by simp [hexact]⟩
  rcases eventually_or_never (Q := fun n => ∃ p, (m n).get? c = some p)
      (fun n ⟨p, hp⟩ => (hstep n p hp).imp fun _ => And.left) with ⟨N, hN⟩ | hnever
  · obtain ⟨p, hp, hnext⟩ := exists_contents (x := fun n => (m (N + n)).get? c)
      (Option.some_injective _) (hN 0) fun n => hstep (N + n)
    have hvalue := Value.rests hfinite hT (σ c) (v := fun n => (p n).value)
      (fun n => hm (N + n) c _ (hp n)) fun n => (hnext n).1
    have hexact := eventually_not_new (Q := fun n => (p n).exact = false) fun n => (hnext n).2
    refine eventually_of_tail N ?_
    filter_upwards [hvalue, hexact] with n hv he
    rw [hp n, show (m (N + n + 1)).get? c = _ from hp (n + 1)]
    refine ⟨hv, fun hpe => ?_⟩
    by_contra hne
    simp [he (by simpa using hne)] at hpe
  · refine .of_forall fun n => ?_
    have hnone : ∀ n, (m n).get? c = none := fun n =>
      Option.eq_none_iff_forall_ne_some.2 fun p hp => hnever n ⟨p, hp⟩
    rw [hnone, hnone]
    trivial

lemma eventually_copiesUnder (hfinite : T.Finite) (hT : none ∈ T) {C : Set Cell} (hC : C.Finite)
    (hkeys : ∀ n, ∀ c ∈ (m n).keys, c ∈ C) (hm : ∀ n, CopiesFit T σ (m n))
    (hz : ∀ n, CopiesFit T σ (z n)) (hunder : ∀ n, CopiesUnder (m n) (z n))
    (h : ∀ n, mergeCopies Value.widen (m n) (z n) = .ok (m (n + 1))) :
    ∀ᶠ n in atTop, CopiesUnder (m (n + 1)) (m n) := by
  have hall : ∀ᶠ n in atTop, ∀ c ∈ C, CopyUnder ((m (n + 1)).get? c) ((m n).get? c) :=
    (eventually_all_finite hC).2 fun c _ => eventually_copyUnder hfinite hT hm hz hunder h c
  refine hall.mono fun n hn c => ?_
  by_cases hc : c ∈ C
  · exact hn c hc
  · have hnone : ∀ n, (m n).get? c = none := fun n =>
      get?_eq_none fun hk => hc (hkeys n c hk)
    rw [hnone, hnone]
    trivial

end Copies

/-! ## Names -/

/-- The finitely many names that the states of a sequence are about, and the kind of their
relations. -/
structure Scope where
  kind : RelationKind
  cells : Finset Cell
  vars : Finset String
  mutexes : Finset String
  threads : Finset ThreadId
  targets : Finset Target

/-- What a state could pass on to another has a name of the scope. -/
structure Over (U : Scope) (s : State) : Prop where
  kind : s.reachable = true → s.relation.kind = U.kind
  vars : ∀ v ∈ s.relation.vars, v ∈ U.vars
  cells : ∀ c ∈ s.cells.keys, c ∈ U.cells
  copies : ∀ c ∈ s.copies.keys, c ∈ U.cells
  escaped : ∀ c ∈ s.escaped, c ∈ U.cells
  mutexes : ∀ m ∈ s.locks.may, m ∈ U.mutexes
  created : ∀ t ∈ s.created, t ∈ U.threads

section Over

variable {U : Scope} {σ : Cell → List (Option Int)} {f : Value → Value → Except Fault Value}
  {g : Relation → Relation → Relation} {s t r j w : State}

lemma mem_keys_mergeCopies {m₁ m₂ m : SortedMap Cell PrivateCopy} {c : Cell}
    (h : mergeCopies f m₁ m₂ = .ok m) (hc : c ∈ m.keys) : c ∈ m₁.keys ∨ c ∈ m₂.keys := by
  have hget := get?_mergeCopies h c
  by_contra hnot
  rw [not_or] at hnot
  rw [get?_eq_none hnot.1, get?_eq_none hnot.2] at hget
  obtain ⟨p, hp⟩ := mem_keys.1 hc
  rw [hget] at hp
  cases hp

lemma mem_keys_addGlobals {single : State} {m₁ m : SortedMap Cell PrivateCopy} {c : Cell}
    (h : addGlobals f single m₁ = .ok m) (hc : c ∈ m.keys) :
    c ∈ m₁.keys ∨ c ∈ single.cells.keys := by
  refine foldlM_induct ?_ (fun c => .inl) h c hc
  rintro m ⟨d, v⟩ m' hmem hm hstep c hc
  obtain ⟨u, -, hstep⟩ := bind_eq_ok.1 hstep
  cases hstep
  obtain ⟨p, hp⟩ := mem_keys.1 hc
  rw [get?_insert] at hp
  split at hp
  next hcd =>
    have hv := get?_eq_some_iff.2 hmem
    rw [get?_filter, Option.filter_eq_some_iff] at hv
    exact .inr (mem_keys.2 ⟨v, hcd ▸ hv.1⟩)
  next => exact hm c (mem_keys.2 ⟨p, hp⟩)

lemma Merged.over (h : Merged f g s t r) (hs : s.Over U) (ht : t.Over U)
    (hkind : r.relation.kind = U.kind) (hvars : ∀ v ∈ r.relation.vars, v ∈ U.vars) :
    r.Over U where
  kind _ := hkind
  vars := hvars
  cells c hc := by
    obtain ⟨u, hu⟩ := mem_keys.1 hc
    obtain ⟨v, -, hv, -⟩ := get?_mergeValues h.cells hu
    exact hs.cells c (mem_keys.2 ⟨v, hv⟩)
  copies c hc := by
    obtain ⟨copies, hmerge, hcopies⟩ := h.copies
    have hmerged : c ∈ copies.keys → c ∈ U.cells := fun hc =>
      (mem_keys_mergeCopies hmerge hc).elim (hs.copies c) (ht.copies c)
    split at hcopies
    · cases hcopies
      exact hmerged hc
    · refine (mem_keys_addGlobals hcopies hc).elim hmerged ?_
      split
      exacts [ht.cells c, hs.cells c]
  escaped c hc := (mem_union.1 (h.escaped ▸ hc)).elim (hs.escaped c) (ht.escaped c)
  mutexes m hm := by
    rw [h.locks] at hm
    exact (mem_union.1 hm).elim (hs.mutexes m) (ht.mutexes m)
  created i hi := (mem_union.1 (h.created ▸ hi)).elim (hs.created i) (ht.created i)

lemma Over.kind_eq (hs : s.Over U) (ht : t.Over U) (hsr : s.reachable = true)
    (htr : t.reachable = true) : s.relation.kind = t.relation.kind :=
  (hs.kind hsr).trans (ht.kind htr).symm

lemma over_join (hs : s.Shaped T σ) (hso : s.Over U) (ht : t.Shaped T σ) (hto : t.Over U)
    (hj : s.join t = .ok j) : j.Over U := by
  rcases merge_cases hj with ⟨-, rfl⟩ | ⟨-, -, rfl⟩ | ⟨hsr, htr, hm⟩
  · exact hto
  · exact hso
  have hk := Relation.sameKind_iff.2 (hso.kind_eq hto hsr htr)
  refine hm.over hso hto ?_ fun v hv => ?_
  · rw [hm.relation, ← Relation.sameKind_iff.1 hk.join, hso.kind hsr]
  · rw [hm.relation] at hv
    rcases (hs.relation hsr).join_cases (ht.relation htr) hk with ⟨-, heq⟩ | ⟨-, -, heq⟩ | ⟨hr,
      hr', -⟩
    · exact hto.vars v (heq ▸ hv)
    · exact hso.vars v (heq ▸ hv)
    · exact (hr.mem_vars_join hr' hk hv).elim (hso.vars v) (hto.vars v)

lemma over_widen (hs : s.Shaped T σ) (hso : s.Over U) (hj : j.Shaped T σ) (hjo : j.Over U)
    (hne : s.isBottom = false → j.isBottom = false) (hw : s.widen j = .ok w) : w.Over U := by
  rcases merge_cases hw with ⟨-, rfl⟩ | ⟨-, -, rfl⟩ | ⟨hsr, hjr, hm⟩
  · exact hjo
  · exact hso
  have hk := Relation.sameKind_iff.2 (hso.kind_eq hjo hsr hjr)
  rcases hs.relation hsr with hbottom | hproper
  · have heq : w.relation = j.relation := by rw [hm.relation, Relation.widen, if_pos hbottom]
    exact hm.over hso hjo (heq ▸ hjo.kind hjr) (heq ▸ hjo.vars)
  · have hproper' : j.relation.Proper := by
      refine (hj.relation hjr).proper ?_
      have := hne (by simp [isBottom, hsr, hproper.isBottom])
      simpa [isBottom, hjr] using this
    refine hm.over hso hjo ?_ fun v hv => ?_
    · rw [hm.relation, hproper.kind_widen hk, hso.kind hsr]
    · rw [hm.relation] at hv
      exact (hproper.mem_vars_widen hproper' hk hv).elim (hso.vars v) (hjo.vars v)

end Over

/-! ## Sequences -/

/-- A state that is not empty is widened by one above it. -/
structure Widening (T : Set Target) (σ : Cell → List (Option Int)) (s j w : State) : Prop where
  merged : Merged Value.widen Relation.widen s j w
  shaped : j.Shaped T σ
  under : StoreUnder s j
  proper : s.relation.Proper
  proper_right : j.relation.Proper
  sameKind : Relation.SameKind s.relation j.relation

section Sequences

variable {U : Scope} {σ : Cell → List (Option Int)}

section Step

variable {s t j w : State} (hT : none ∈ T) (hs : s.Shaped T σ) (hso : s.Over U) (ht : t.Shaped T σ)
  (hto : t.Over U) (hj : s.join t = .ok j) (hw : s.widen j = .ok w)
include hT hs hso ht hto hj hw

lemma widening_of_join (hne : s.isBottom = false) : Widening T σ s j w := by
  obtain ⟨hjs, hunder, -⟩ := join_spec hT hs ht (hso.kind_eq hto) hj
  obtain ⟨hjb, -, hstore⟩ := hunder hne
  obtain ⟨hsr, hsb⟩ : s.reachable = true ∧ s.relation.isBottom = false := by
    simpa [isBottom] using hne
  obtain ⟨hjr, hjb⟩ : j.reachable = true ∧ j.relation.isBottom = false := by
    simpa [isBottom] using hjb
  obtain ⟨-, -, hm⟩ := ((merge_cases hw).resolve_left (by simp [hsr])).resolve_left (by simp [hjr])
  exact ⟨hm, hjs, hstore, (hs.relation hsr).proper hsb, (hjs.relation hjr).proper hjb,
    Relation.sameKind_iff.2 (hso.kind_eq (over_join hs hso ht hto hj) hsr hjr)⟩

lemma widen_join_over : w.Shaped T σ ∧ w.Over U ∧ (s.isBottom = false → w.isBottom = false) := by
  obtain ⟨hjs, hsj, -⟩ := join_spec hT hs ht (hso.kind_eq hto) hj
  obtain ⟨hws, hsw, -⟩ := widen_join_spec hT hs ht (hso.kind_eq hto) hj hw
  have hjo := over_join hs hso ht hto hj
  exact ⟨hws, over_widen hs hso hjs hjo (fun hne => (hsj hne).1) hw, fun hne => (hsw hne).1⟩

end Step

section Widenings

variable {x j : ℕ → State} (hfinite : T.Finite) (hT : none ∈ T) (hx : ∀ n, (x n).Shaped T σ)
  (hover : ∀ n, (x n).Over U) (h : ∀ n, Widening T σ (x n) (j n) (x (n + 1)))
include h

lemma exists_mergeCopies : ∃ N, ∀ n,
    mergeCopies Value.widen (x (N + n)).copies (j (N + n)).copies = .ok (x (N + n + 1)).copies := by
  obtain ⟨N, hN⟩ : ∃ N, ∀ n, (x (N + n)).multithreaded = (j (N + n)).multithreaded := by
    have hkept : ∀ n, (x n).multithreaded = true →
      (x (n + 1)).multithreaded = true := fun n hn => by
      rw [(h n).merged.multithreaded, hn, Bool.true_or]
    rcases eventually_or_never hkept with ⟨N, hN⟩ | hnever
    · exact ⟨N, fun n => (hN n).trans ((h (N + n)).under.multithreaded (hN n)).symm⟩
    · refine ⟨0, fun n => ?_⟩
      have hnext := hnever (0 + n + 1)
      rw [(h _).merged.multithreaded, Bool.or_eq_true, not_or] at hnext
      rw [Bool.eq_false_iff.2 hnext.1, Bool.eq_false_iff.2 hnext.2]
  refine ⟨N, fun n => ?_⟩
  obtain ⟨copies, hmerge, hcopies⟩ := (h (N + n)).merged.copies
  rw [if_pos (hN n)] at hcopies
  cases hcopies
  exact hmerge

include hover

lemma eventually_relation_le : ∀ᶠ n in atTop, (x (n + 1)).relation.le (x n).relation :=
  Relation.eventually_le (fun n => (h n).proper) (fun n => (h n).proper_right)
    (fun n => (h n).sameKind) (fun n => (h n).merged.relation) U.vars.finite_toSet
    fun n => (hover n).vars

include hfinite hT hx

lemma eventually_storeUnder : ∀ᶠ n in atTop, StoreUnder (x (n + 1)) (x n) := by
  have hcells := eventually_valuesUnder hfinite hT (fun n => (hx n).cells)
    (fun n => (h n).shaped.cells) fun n => (h n).merged.cells
  have hkept := eventually_valuesUnder hfinite hT (fun n => (hx n).kept)
    (fun n => (h n).shaped.kept) fun n => (h n).merged.kept
  have hcopies : ∀ᶠ n in atTop, CopiesUnder (x (n + 1)).copies (x n).copies := by
    obtain ⟨N, hN⟩ := exists_mergeCopies h
    exact eventually_of_tail N (eventually_copiesUnder hfinite hT U.cells.finite_toSet
      (fun n => (hover (N + n)).copies) (fun n => (hx (N + n)).copies)
      (fun n => (h (N + n)).shaped.copies) (fun n => (h (N + n)).under.copies) hN)
  have hlocks := LockSet.eventually_le (l := fun n => (x n).locks) U.mutexes.finite_toSet
    (fun n => (hover n).mutexes) fun n => (h n).merged.locks ▸ LockSet.le_join_left _ _
  have hthreaded := eventually_not_new (Q := fun n => (x n).multithreaded = true) fun n hn => by
    rw [(h n).merged.multithreaded, hn, Bool.true_or]
  have hcreated := eventually_subset U.threads.finite_toSet
    (x := fun n => {t | t ∈ (x n).created}) (fun n => (hover n).created) fun n t ht =>
      (h n).merged.created ▸ mem_union.2 (.inl ht)
  have hjoined := eventually_superset (x := fun n => {t | t ∈ (x n).joined})
    (x 0).joined.toList.finite_toSet fun n t ht =>
      (mem_inter.1 ((h n).merged.joined ▸ ht)).1
  have hescaped := eventually_subset U.cells.finite_toSet
    (x := fun n => {c | c ∈ (x n).escaped}) (fun n => (hover n).escaped) fun n c hc =>
      (h n).merged.escaped ▸ mem_union.2 (.inl hc)
  filter_upwards [hcells, hkept, hcopies, hlocks, hthreaded, hcreated, hjoined, hescaped]
    with n hcells hkept hcopies hlocks hthreaded hcreated hjoined hescaped
  exact ⟨hcells, hkept, hcopies, hlocks, hthreaded, hcreated, hjoined, hescaped⟩

end Widenings

lemma Shaped.mono {s : State} {T' : Set Target} (hs : s.Shaped T σ) (hT : T ⊆ T') :
    s.Shaped T' σ where
  cells c v hv := (hs.cells c v hv).mono hT
  kept k v hv := (hs.kept k v hv).mono hT
  copies c p hp := (hs.copies c p hp).mono hT
  relation := hs.relation

end Sequences

/-- **Widening comes to rest.**  Widen a state by its join with another, again and again.  If all
states are over finitely many names, the values of each cell have one shape and no relation is empty
without being found to be, then from some point on each state is below the one before. -/
theorem eventually_widen_join_le {U : Scope} {σ : Cell → List (Option Int)} {x y : ℕ → State}
    (hx : (x 0).Shaped U.targets σ) (hxo : (x 0).Over U) (hy : ∀ n, (y n).Shaped U.targets σ)
    (hyo : ∀ n, (y n).Over U)
    (hstep : ∀ n, ∃ j, (x n).join (y n) = .ok j ∧ (x n).widen j = .ok (x (n + 1))) :
    ∀ᶠ n in atTop, (x (n + 1)).le (x n) ≠ .ok false := by
  -- A zero that is joined with an address is the null pointer.
  have hfinite : (insert none (U.targets : Set Target)).Finite := U.targets.finite_toSet.insert none
  have hT : none ∈ insert none (U.targets : Set Target) := Set.mem_insert _ _
  have hsub := Set.subset_insert none (U.targets : Set Target)
  have hyT := fun n => (hy n).mono hsub
  choose j hj hw using hstep
  have hall : ∀ n, (x n).Shaped (insert none U.targets) σ ∧ (x n).Over U := by
    intro n
    induction n with
    | zero => exact ⟨hx.mono hsub, hxo⟩
    | succ n ih =>
      obtain ⟨hs, hso, -⟩ := widen_join_over hT ih.1 ih.2 (hyT n) (hyo n) (hj n) (hw n)
      exact ⟨hs, hso⟩
  have hkept : ∀ n, (x n).isBottom = false → (x (n + 1)).isBottom = false := fun n =>
    (widen_join_over hT (hall n).1 (hall n).2 (hyT n) (hyo n) (hj n) (hw n)).2.2
  rcases Chain.eventually_or_never hkept with ⟨N, hN⟩ | hempty
  · refine Chain.eventually_of_tail N ?_
    have hwiden : ∀ n, Widening (insert none U.targets) σ (x (N + n)) (j (N + n)) (x (N + n + 1)) :=
      fun n => widening_of_join hT (hall _).1 (hall _).2 (hyT _) (hyo _) (hj _) (hw _) (hN n)
    have hrelation := eventually_relation_le (fun n => (hall (N + n)).2) hwiden
    have hstore := eventually_storeUnder hfinite hT (fun n => (hall (N + n)).1)
      (fun n => (hall (N + n)).2) hwiden
    filter_upwards [hrelation, hstore] with n hr hs
    exact le_ne_false fun _ => ⟨hN n, hr, hs⟩
  · exact .of_forall fun n => le_ne_false fun hne => absurd hne (hempty (n + 1))

/-- The names of `alone` and `sharing`. -/
def names : Scope where
  kind := .octagon
  cells := {.ofLocal "main" "p", .ofGlobal "a"}
  vars := {"x", "y"}
  mutexes := ∅
  threads := ∅
  targets := {some (.ofGlobal "a")}

lemma over_alone : alone.Over names := by
  refine ⟨fun _ => rfl, ?_, ?_, ?_, ?_, ?_, ?_⟩ <;> decide +kernel

lemma over_sharing : sharing.Over names := by
  refine ⟨fun _ => rfl, ?_, ?_, ?_, ?_, ?_, ?_⟩ <;> decide +kernel

/-- What `alone` becomes when it is widened with `sharing`. -/
def settled : State :=
  { unknown .octagon with
    multithreaded := true
    cells := ⟨[(.ofLocal "main" "p", .addr (.of (.ofList [none, some (.ofGlobal "a")])))], by decide⟩
    copies := ⟨[(.ofGlobal "a", ⟨.array ⟨some 2, .split 0 .bottom (.int ⟨.range 1 4, .residue 1 3⟩)
      (.int ⟨.range 2 7, .residue 2 5⟩)⟩, false⟩)], by decide⟩
    relation := .octagon (.unconstrained (.ofList ["x", "y"])) }

/-- The two states by turns: the first step changes the state, and later ones do not. -/
theorem eventually_widen_join_le_by_turns : ∃ x : ℕ → State, x 0 = alone ∧
    (x 1).le (x 0) = .ok false ∧
    (∀ n, ∃ j, (x n).join (if n % 2 = 0 then sharing else alone) = .ok j ∧
      (x n).widen j = .ok (x (n + 1))) ∧
    ∀ᶠ n in atTop, (x (n + 1)).le (x n) ≠ .ok false := by
  have hfirst : (do alone.widen (← alone.join sharing)) = .ok settled := by decide +kernel
  have hsharing : (do settled.widen (← settled.join sharing)) = .ok settled := by decide +kernel
  have halone : (do settled.widen (← settled.join alone)) = .ok settled := by decide +kernel
  let x (n : ℕ) : State := if n = 0 then alone else settled
  have hstep : ∀ n, ∃ j, (x n).join (if n % 2 = 0 then sharing else alone) = .ok j ∧
      (x n).widen j = .ok (x (n + 1)) := by
    intro n
    rcases Nat.eq_zero_or_pos n with rfl | hn
    · exact bind_eq_ok.1 hfirst
    · simp only [x, if_neg hn.ne', if_neg n.succ_ne_zero]
      split
      · exact bind_eq_ok.1 hsharing
      · exact bind_eq_ok.1 halone
  have ha : some (.ofGlobal "a") ∈ (names.targets : Set Target) := by decide +kernel
  refine ⟨x, rfl, by decide +kernel, hstep, ?_⟩
  refine eventually_widen_join_le (U := names) (shaped_alone _) over_alone (fun n => ?_)
    (fun n => ?_) hstep
  · split
    exacts [shaped_sharing ha, shaped_alone _]
  · split
    exacts [over_sharing, over_alone]

/-- An octagon over `x` and `y` with the given bounds on differences of quantities. -/
def bounded (bounds : List (Nat × Nat × Int)) : State :=
  { unknown .octagon with
    relation := .octagon (bounds.foldl (fun o b => o.constrain b.1 b.2.1 b.2.2)
      (.unconstrained (.ofList ["x", "y"]))) }

/-- The constraints `y ≤ 3`, `x ≤ 2 ^ 62 - 3`, `x - y ≤ -3 * 2 ^ 61` and `x + y ≥ 3 * 2 ^ 61`. -/
def steep : State :=
  bounded [(3, 2, 6), (1, 0, 2 ^ 63 - 6), (2, 0, -3 * 2 ^ 61), (2, 1, -3 * 2 ^ 61)]

/-- The constraints `x ≤ -2 ^ 62`, `y ≤ -2 ^ 62` and `x + y ≥ 2 ^ 63 - 1`. -/
def falling : State := bounded [(1, 0, -2 ^ 63), (3, 2, -2 ^ 63), (2, 1, -2 ^ 63 + 1)]

/-- Two octagons without a valuation that are not found to be empty.  Widening by one gives an
octagon that is found to be empty, and widening that by the other starts again. -/
theorem widening_never_rests : ∃ x : ℕ → State, x 0 = steep ∧
    (∀ n, ∃ j, (x n).join (if n % 2 = 0 then falling else steep) = .ok j ∧
      (x n).widen j = .ok (x (n + 1))) ∧
    ∀ n, (x (2 * n + 2)).le (x (2 * n + 1)) = .ok false := by
  have hrun : (do
      let j ← steep.join falling
      let s ← steep.widen j
      let k ← s.join steep
      let t ← s.widen k
      let le ← steep.le s
      return (t == steep, le)) = .ok (true, false) := by
    decide +kernel
  obtain ⟨j, hj, hrun⟩ := bind_eq_ok.1 hrun
  obtain ⟨s, hs, hrun⟩ := bind_eq_ok.1 hrun
  obtain ⟨k, hk, hrun⟩ := bind_eq_ok.1 hrun
  obtain ⟨t, ht, hrun⟩ := bind_eq_ok.1 hrun
  obtain ⟨le, hle, hrun⟩ := bind_eq_ok.1 hrun
  obtain ⟨hback, rfl⟩ := Prod.mk.inj (Except.ok.inj hrun)
  obtain rfl : t = steep := beq_iff_eq.1 hback
  refine ⟨fun n => if n % 2 = 0 then steep else s, rfl, fun n => ?_, fun n => ?_⟩
  · rcases Nat.mod_two_eq_zero_or_one n with hn | hn
    · simp only [hn, show (n + 1) % 2 = 1 by omega]
      exact ⟨j, hj, hs⟩
    · simp only [hn, show (n + 1) % 2 = 0 by omega]
      exact ⟨k, hk, ht⟩
  · simp only [show (2 * n + 2) % 2 = 0 by omega, show (2 * n + 1) % 2 = 1 by omega]
    exact hle

end State
end StaticAnalysis
