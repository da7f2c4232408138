import StaticAnalysis.Proofs.Memory.Pointers
import StaticAnalysis.Proofs.Shared.Steps
import StaticAnalysis.Transfer.Guard

/-!
# Equality of pointers

Whether two pointers are equal is not decided if a target of one may be a target of the other.  A
check that is still open is tried by guarding the state with the condition and with its negation,
and a guard intersects the targets of the two sides.

The intersection is right as long as targets that may alias are the same; two opaque objects of
unknown callers may be one, and the intersection of the pointers to them is empty.  A guard refines
one side and then the other, in the state that it has by then, so it is also asked that the
designators do not depend on the cells that they denote, as in `p == p->next`.
-/

namespace StaticAnalysis

open SortedSet Step AddrSet SortedMap
open Bool hiding or_self not_true not_or

namespace AddrSet

variable {S : SortedSet Target}

lemma exists_isSome {z : Target} (hz : z ∈ S) (hS : S ≠ .singleton none) :
    ∃ z, z ∈ S ∧ z.isSome := by
  by_contra hnone
  have hall : ∀ z ∈ S, z = none := fun z hz =>
    Option.not_isSome_iff_eq_none.1 fun hsome => hnone ⟨z, hz, hsome⟩
  refine hS (ext_mem fun y => ⟨fun hy => ?_, fun hy => ?_⟩)
  · exact mem_singleton.2 (hall y hy)
  · exact mem_singleton.1 hy ▸ hall z hz ▸ hz

end AddrSet

/-! ## Values with fewer targets -/

namespace Value

variable {W : Target → Prop} {v v' w w' u : Value}

/-- A value that is the same as before, or a set of addresses that still has certain targets. -/
inductive Thinned (W : Target → Prop) : Value → Value → Prop
  | same {v : Value} : Thinned W v v
  | addr {A B : SortedSet Target} (hA : ∀ z, W z → z ∈ A) (hB : ∀ z, W z → z ∈ B) :
    Thinned W (.addr (.of A)) (.addr (.of B))

lemma Thinned.isAddr_eq (h : Thinned W v w) : w.isAddr = v.isAddr := by
  cases h <;> rfl

variable {A : SortedSet Target} {n : Nat}

lemma Thinned.exists_addr (h : Thinned W (.addr (.of A)) w) (hA : ∀ z, W z → z ∈ A) :
    ∃ B, w = .addr (.of B) ∧ ∀ z, W z → z ∈ B := by
  cases h with
  | same => exact ⟨A, rfl, hA⟩
  | addr _ hB => exact ⟨_, rfl, hB⟩

lemma joinWith_eq (n : Nat) (v w : Value) : joinWith n v w = (do
    if ← v.isBottom then return w
    if ← w.isBottom then return v
    joinKinds n v w) := by
  cases n <;> cases v <;> cases w <;> rfl

lemma isBottom_of_mem {z : Target} (h : z ∈ A) : (AddrSet.of A).isBottom = false := by
  rw [AddrSet.isBottom, ← not_eq_true, SortedSet.isEmpty_iff]
  exact fun hnone => hnone z h

lemma Thinned.isBottom_eq {z : Target} (hz : W z) (h : Thinned W v w) :
    w.isBottom = v.isBottom := by
  cases h with
  | same => rfl
  | addr hA hB => simp only [isBottom, isBottom_of_mem (hA z hz), isBottom_of_mem (hB z hz)]

lemma thinned_joinKinds_addr {B : SortedSet Target} (hA : ∀ z, W z → z ∈ A) (hB : ∀ z, W z → z ∈ B)
    (hw : Thinned W w w') (h : joinKinds n (.addr (.of A)) w = .ok u) : ∃ u',
    joinKinds n (.addr (.of B))
    w' = .ok u' ∧ Thinned W u u' := by
  have hunion : ∀ C D : SortedSet Target, Thinned W (.addr (.of (A.union C)))
    (.addr (.of (B.union D))) :=
    fun C D => .addr (fun z hz => mem_union.2 (.inl (hA z hz)))
      fun z hz => mem_union.2 (.inl (hB z hz))
  cases hw with
  | addr =>
    cases h
    exact ⟨_, rfl, hunion _ _⟩
  | same =>
    cases w with
    | addr b =>
      cases h
      cases b
      exacts [⟨_, rfl, .same⟩, ⟨_, rfl, hunion _ _⟩]
    | int i =>
      cases h
      refine ⟨_, rfl, ?_⟩
      split
      exacts [hunion _ _, .same]
    | _ =>
      cases h
      exact ⟨_, rfl, .same⟩

lemma thinned_joinKinds (hv : Thinned W v v') (hw : Thinned W w w') (h : joinKinds n v w = .ok u) :
    ∃ u', joinKinds n v' w' = .ok u' ∧ Thinned W u u' := by
  have hcomm : ∀ a, joinKinds n v (.addr a) = joinKinds n (.addr a) v := by
    cases v <;> simp [joinKinds, AddrSet.join_comm]
  cases hv with
  | addr hA hB => exact thinned_joinKinds_addr hA hB hw h
  | same =>
    cases hw with
    | same => exact ⟨u, h, .same⟩
    | addr hA hB =>
      rw [hcomm] at h ⊢
      exact thinned_joinKinds_addr hA hB .same h

lemma thinned_join {z : Target} (hz : W z) (hv : Thinned W v v') (hw : Thinned W w w')
    (h : v.join w = .ok u) : ∃ u', v'.join w' = .ok u' ∧ Thinned W u u' := by
  have hdepth : max v'.depth w'.depth = max v.depth w.depth := by
    cases hv <;> cases hw <;> rfl
  rw [join, joinWith_eq] at h ⊢
  rw [hdepth, hv.isBottom_eq hz, hw.isBottom_eq hz]
  obtain ⟨bv, hbv, h⟩ := Fault.bind_eq_ok.1 h
  rw [hbv]
  cases bv with
  | true =>
    cases h
    exact ⟨w', rfl, hw⟩
  | false =>
    obtain ⟨bw, hbw, h⟩ := Fault.bind_eq_ok.1 h
    rw [hbw]
    cases bw with
    | true =>
      cases h
      exact ⟨v', rfl, hv⟩
    | false => exact thinned_joinKinds hv hw h

end Value

/-! ## Evaluation -/

lemma Cell.eq_ofLocal {c : Cell} {function name : String} (h : c.localVar? = some (function,
    name)) : c = .ofLocal function name := by
  unfold localVar? at h
  split at h
  · cases h
    rfl
  · cases h

lemma Place.eq_ofCell {p : Place} (h : p.isCell) : p = .ofCell p.cell := by
  obtain ⟨cell, index, inner⟩ := p
  simpa [isCell, ofCell] using h

namespace State

variable {env : Env} {s t : State} {e : Expr} {v : Value} {c : Cell} {a : AddrSet}

lemma settle_eq_addr (h : s.settle env e v = .ok (.addr a)) : v = .addr a := by
  cases v with
  | int i =>
    obtain ⟨j, -, h⟩ := Fault.bind_eq_ok.1 h
    split at h
    · cases h
    obtain ⟨form, -, h⟩ := Fault.bind_eq_ok.1 h
    cases form with
    | none => cases h
    | some f =>
      dsimp only at h
      split at h
      · cases h
      · obtain ⟨_, -, h⟩ := Fault.bind_eq_ok.1 h
        cases h
  | _ => exact Except.ok.inj h

lemma arithmetic_ne_addr (op : ArithOp) {x y : Value} : arithmetic op x y ≠ .ok (.addr a) := by
  intro h
  cases op <;> unfold arithmetic at h <;> dsimp only at h
  · split at h
    · cases h
    · obtain ⟨_, -, h⟩ := Fault.bind_eq_ok.1 h
      cases h
  all_goals
    obtain ⟨_, -, h⟩ := Fault.bind_eq_ok.1 h
    cases h

/-- The expressions that are addresses: null, addresses of designators and what is read from
them. -/
lemma eval_eq_addr (h : s.eval env e = pure (.addr a)) :
    (e = .null ∧ a = .null) ∨
      (∃ lv places, e = .read lv ∧ s.resolve env lv = pure places ∧
        s.loadPlaces env places = pure (.addr a)) ∨
      ∃ lv places, e = .addrOf lv ∧ s.resolve env lv = pure places ∧
        addressOf places = .addr a := by
  cases e with
  | const | unknown | unsupported =>
    rw [eval] at h
    cases settle_eq_addr (lift_eq_pure.1 h)
  | null =>
    rw [eval] at h
    cases settle_eq_addr (lift_eq_pure.1 h)
    exact .inl ⟨rfl, rfl⟩
  | read lv =>
    rw [eval] at h
    obtain ⟨places, hplaces, h⟩ := bind_eq_pure.1 h
    obtain ⟨v, hv, h⟩ := bind_eq_pure.1 h
    cases settle_eq_addr (lift_eq_pure.1 h)
    exact .inr (.inl ⟨lv, places, rfl, hplaces, hv⟩)
  | addrOf lv =>
    rw [eval] at h
    obtain ⟨places, hplaces, h⟩ := bind_eq_pure.1 h
    exact .inr (.inr ⟨lv, places, rfl, hplaces, settle_eq_addr (lift_eq_pure.1 h)⟩)
  | arith op x y =>
    rw [eval] at h
    obtain ⟨_, -, h⟩ := bind_eq_pure.1 h
    obtain ⟨_, -, h⟩ := bind_eq_pure.1 h
    obtain ⟨v, hv, h⟩ := bind_eq_pure.1 h
    cases settle_eq_addr (lift_eq_pure.1 h)
    exact absurd (lift_eq_pure.1 hv) (arithmetic_ne_addr op)
  | neg x =>
    rw [eval] at h
    obtain ⟨_, -, h⟩ := bind_eq_pure.1 h
    obtain ⟨_, -, h⟩ := bind_eq_pure.1 h
    cases settle_eq_addr (lift_eq_pure.1 h)
  | truth c =>
    rw [eval] at h
    obtain ⟨_, -, h⟩ := bind_eq_pure.1 h
    cases settle_eq_addr (lift_eq_pure.1 h)

variable {lv : LValue} {places : Option (List Place)} {p q : Target}

lemma eval_read (hplaces : s.resolve env lv = pure places)
    (h : s.loadPlaces env places = pure (.addr a)) : s.eval env (.read lv) = pure (.addr a) := by
  rw [eval]
  exact bind_eq_pure.2 ⟨_, hplaces, bind_eq_pure.2 ⟨_, h, rfl⟩⟩

lemma eval_addrOf (hplaces : s.resolve env lv = pure places) (h : addressOf places = .addr a) :
    s.eval env (.addrOf lv) = pure (.addr a) := by
  rw [eval]
  refine bind_eq_pure.2 ⟨_, hplaces, ?_⟩
  rw [h]
  rfl

/-- A cell whose value is in the state, and is not subject to other threads or to unknown
callers. -/
def IsOwn (env : Env) (s : State) (c : Cell) : Prop :=
  ofCaller env c = false ∧ (s.multithreaded && (c.isGlobal || c.isHeap || s.isEscaped c)) = false

lemma loadCell_of_isOwn (h : s.IsOwn env c) : s.loadCell env c = pure (s.get c) := by
  obtain ⟨hcaller, hthreads⟩ := h
  simp only [and_eq_false_iff, or_eq_false_iff] at hthreads
  rcases hthreads with hthreads | ⟨⟨hglobal, hheap⟩, hescaped⟩
  · simp [loadCell, hcaller, hthreads]
  · simp [loadCell, hcaller, hglobal, hheap, hescaped]

lemma loadCell_eq_pure (h : s.loadCell env c = pure v) :
    (s.IsOwn env c ∧ v = s.get c) ∨
      (ofCaller env c = false ∧ s.multithreaded ∧ c.isGlobal = false ∧
        (c.isHeap || s.isEscaped c) ∧ v = .top) := by
  unfold loadCell at h
  split at h
  · obtain ⟨_, h, -⟩ := bind_eq_pure.1 h
    cases h
  next hcaller =>
    rw [not_eq_true] at hcaller
    split at h
    · obtain ⟨_, h, -⟩ := bind_eq_pure.1 h
      cases h
    next hglobal =>
      split at h
      next hother =>
        rw [and_eq_true] at hother
        exact .inr ⟨hcaller, hother.1, by simpa [hother.1] using hglobal, hother.2,
          (Step.done.inj h).symm⟩
      next hother =>
        refine .inl ⟨⟨hcaller, ?_⟩, (Step.done.inj h).symm⟩
        cases hm : s.multithreaded <;> simp_all

/-! ## States with fewer targets -/

/-- The state after some cells were refined: only addresses in these cells have changed, and they
still have certain targets. -/
structure Refined (W : Target → Prop) (R : Cell → Prop) (s t : State) : Prop where
  same : t = { s with cells := t.cells }
  values : ∀ c, Value.Thinned W (s.get c) (t.get c)
  others : ∀ c, ¬ R c → t.get c = s.get c

namespace Refined

variable {W : Target → Prop} {R : Cell → Prop} {z : Target}

lemma refl (s : State) : Refined W R s s := ⟨rfl, fun _ => .same, fun _ _ => rfl⟩

section

variable (h : Refined W R s t)
include h

lemma multithreaded : t.multithreaded = s.multithreaded := by
  rw [h.same]

lemma isEscaped (c : Cell) : t.isEscaped c = s.isEscaped c := by
  rw [h.same]
  rfl

lemma tracked : t.tracked env = s.tracked env := by
  funext name
  simp [State.tracked, h.isEscaped]

lemma isOwn (hc : s.IsOwn env c) : t.IsOwn env c := by
  unfold IsOwn at hc ⊢
  rwa [h.multithreaded, h.isEscaped]

lemma loadCell (hv : s.loadCell env c = pure v) :
    ∃ v', t.loadCell env c = pure v' ∧ Value.Thinned W v v' := by
  rcases loadCell_eq_pure hv with ⟨hown, rfl⟩ | ⟨hcaller, hthreads, hglobal, hother, rfl⟩
  · exact ⟨_, loadCell_of_isOwn (h.isOwn hown), h.values c⟩
  · refine ⟨.top, ?_, .same⟩
    simp [State.loadCell, hcaller, h.multithreaded, hthreads, hglobal, h.isEscaped, hother]

end

lemma load {p : Place} (h : Refined W R s t) (hv : s.load env p = pure v) :
    ∃ v', t.load env p = pure v' ∧ Value.Thinned W v v' := by
  unfold State.load at hv ⊢
  split at hv
  next hinner =>
    rw [if_pos hinner]
    exact ⟨v, hv, .same⟩
  next hinner =>
    rw [if_neg hinner]
    obtain ⟨w, hw, hv⟩ := bind_eq_pure.1 hv
    obtain ⟨w', hw', hthin⟩ := h.loadCell hw
    rw [hw', pure_bind]
    cases hthin with
    | same => exact ⟨v, hv, .same⟩
    | addr hA hB =>
      cases hindex : p.index with
      | none =>
        simp only [hindex] at hv
        cases hv
        exact ⟨_, rfl, .addr hA hB⟩
      | some i =>
        simp only [hindex] at hv
        exact ⟨v, hv, .same⟩

lemma loadPlaces {places : Option (List Place)} (h : Refined W R s t) (hz : W z)
    (hv : s.loadPlaces env places = pure v) :
    ∃ v', t.loadPlaces env places = pure v' ∧ Value.Thinned W v v' := by
  cases places with
  | none => exact ⟨v, hv, .same⟩
  | some places =>
    -- The induction is on the places that are left; the accumulators are thinned all along.
    suffices hfold : ∀ acc acc', Value.Thinned W acc acc' →
        places.foldlM (fun v p => do v.join (← s.load env p)) acc = (pure v : Step Value) →
        ∃ v', places.foldlM (fun v p => do v.join (← t.load env p)) acc' = (pure v' : Step Value) ∧
          Value.Thinned W v v' from hfold .bottom .bottom .same hv
    clear hv
    induction places with
    | nil =>
      intro acc acc' hacc hv
      cases hv
      exact ⟨acc', rfl, hacc⟩
    | cons p places ih =>
      intro acc acc' hacc hv
      rw [List.foldlM_cons] at hv ⊢
      obtain ⟨u, hu, hv⟩ := bind_eq_pure.1 hv
      obtain ⟨w, hw, hu⟩ := bind_eq_pure.1 hu
      obtain ⟨w', hw', hthin⟩ := h.load hw
      obtain ⟨u', hu', hthin⟩ := Value.thinned_join hz hacc hthin (lift_eq_pure.1 hu)
      obtain ⟨v', hv', hthin⟩ := ih u u' hthin hv
      exact ⟨v', bind_eq_pure.2 ⟨u', bind_eq_pure.2 ⟨w', hw', lift_eq_pure.2 hu'⟩, hv'⟩, hthin⟩

end Refined

/-! ## Relations -/

/-- The relations are about variables that hold no address. -/
def TracksNumbers (env : Env) (s : State) : Prop :=
  ∀ name, s.tracked env name = true → (s.get (env.varCell name)).isAddr = false

lemma TracksNumbers.untracked (h : s.TracksNumbers env) {name : String}
    (hget : s.get (env.varCell name) = .addr a) : s.tracked env name = false := by
  rw [← not_eq_true]
  intro htracked
  have haddr := h name htracked
  rw [hget] at haddr
  cases haddr

lemma get_of_loadPlaces (h : s.loadPlaces env (some [.ofCell c]) = pure (.addr a)) :
    s.IsOwn env c ∧ s.get c = .addr a := by
  simp only [loadPlaces, List.foldlM_cons, List.foldlM_nil, bind_pure] at h
  obtain ⟨v, hv, h⟩ := bind_eq_pure.1 h
  obtain rfl := Value.eq_of_join_bottom (lift_eq_pure.1 h)
  rcases loadCell_eq_pure (by simpa [load, Place.ofCell] using hv) with ⟨hown, hget⟩ | ⟨-, -, -, -,
    htop⟩
  · exact ⟨hown, hget.symm⟩
  · cases htop

lemma linear_of_eval_addr (hs : s.TracksNumbers env) (h : s.eval env e = pure (.addr a)) :
    (e.linear? (s.tracked env)).run = .ok none := by
  rcases eval_eq_addr h with ⟨rfl, -⟩ | ⟨lv, places, rfl, hplaces, hload⟩ | ⟨lv, -, rfl, -, -⟩
  · rfl
  · cases lv with
    | var name =>
      rw [resolve] at hplaces
      cases hplaces
      have hnot := hs.untracked (get_of_loadPlaces hload).2
      simp only [Expr.linear?, hnot, false_eq_true, if_false]
      rfl
    | _ => rfl
  · rfl

lemma linear_cmp {tracked : String → Bool} {x y : Expr} {op : CmpOp} (hop : op = .eq ∨ op = .ne)
    (h : (x.linear? tracked).run = .ok none) : (op.linear? tracked x y).run = .ok none := by
  have hdifference : (x.difference? tracked y).run = .ok none := by
    simp only [Expr.difference?, OptionT.run_bind, h]
    rfl
  rcases hop with rfl | rfl <;>
    · simp only [CmpOp.linear?, OptionT.run_bind, hdifference]
      rfl

variable {x y : Expr} {S T : SortedSet Target} {op : CmpOp}

lemma evalCond_cmp (hs : s.TracksNumbers env) (hop : op = .eq ∨ op = .ne)
    (hx : s.eval env x = pure (.addr (.of S))) (hy : s.eval env y = pure (.addr (.of T)))
    (h : AddrSet.eqTruth (.of S) (.of T) = .unknown) :
    s.evalCond env (.cmp op x y) = pure .unknown := by
  have hlinear := linear_of_eval_addr hs hx
  have hcompare : compareTruth op (.addr (.of S)) (.addr (.of T)) = .ok .unknown := by
    rcases hop with rfl | rfl <;> simp [compareTruth, equalTruth, Value.isAddr, Value.toAddr, h,
      Truth.not]
  have hrelation : s.relationTruth env op x y .unknown = .ok .unknown := by
    unfold relationTruth
    split
    · rfl
    have hneg : op.negate = .eq ∨ op.negate = .ne := by
      rcases hop with rfl | rfl
      exacts [.inr rfl, .inl rfl]
    rw [linear_cmp hop hlinear, linear_cmp hneg hlinear]
    rfl
  rcases hop with rfl | rfl <;>
    · simp only [evalCond, hx, hy, pure_bind]
      exact bind_eq_pure.2 ⟨_, lift_eq_pure.2 hcompare, lift_eq_pure.2 hrelation⟩

lemma guardRelation_of_addr (hs : s.TracksNumbers env) (hop : op = .eq ∨ op = .ne)
    (hx : s.eval env x = pure (.addr a)) {W : Target → Prop} {R : Cell → Prop}
    (h : Refined W R s t) :
    t.guardRelation env op x y = .ok t := by
  unfold guardRelation
  split
  · rfl
  rw [h.tracked, linear_cmp hop (linear_of_eval_addr hs hx)]
  rfl

/-! ## Refinement -/

lemma refineCell_eq (hown : s.IsOwn env c) (hs : s.TracksNumbers env) (hget : s.get c = .addr a) :
    s.refineCell env c (.addr (.of T)) =
    .ok { s with cells := s.cells.insert c (.addr (.of T)) } := by
  obtain ⟨hcaller, hthreads⟩ := hown
  have hset : s.set c (.addr (.of T)) =
    .ok { s with cells := s.cells.insert c (.addr (.of T)) } := rfl
  have huntracked : ∀ name, c.localVar? = some (env.function, name) →
      s.tracked env name = false := by
    intro name hname
    cases hlocal : env.isLocal name with
    | false => simp [State.tracked, hlocal]
    | true =>
      have hcell : env.varCell name = c := by
        rw [Env.varCell, if_pos hlocal, Cell.eq_ofLocal hname]
      exact hs.untracked (hcell ▸ hget)
  have hglobal : (s.multithreaded && c.isGlobal) = false := by
    cases hm : s.multithreaded <;> simp_all
  have hescaped : (s.multithreaded && s.isEscaped c) = false := by
    cases hm : s.multithreaded <;> simp_all
  unfold refineCell
  rw [if_neg (by simp [hcaller]), if_neg (by simp [hglobal]), if_neg (by simp [hescaped]), hset,
    Fault.ok_bind]
  split
  next function name hname =>
    refine if_neg fun htracked => ?_
    obtain ⟨rfl, htracked⟩ := htracked
    exact false_ne_true ((huntracked name hname).symm.trans htracked)
  next => rfl

/-- The expression reads one cell. -/
def Denotes (env : Env) (s : State) (e : Expr) (c : Cell) : Prop :=
  ∃ lv, e = .read lv ∧ s.resolve env lv = pure (some [.ofCell c])

/-- An expression designates the same in two states. -/
def Fixes (env : Env) (s t : State) (e : Expr) : Prop :=
  ∀ lv, e = .read lv ∨ e = .addrOf lv → t.resolve env lv = s.resolve env lv

namespace Refined

variable {W : Target → Prop} {R : Cell → Prop} {z : Target}

lemma tracksNumbers (h : Refined W R s t) (hs : s.TracksNumbers env) : t.TracksNumbers env := by
  intro name hname
  rw [(h.values _).isAddr_eq]
  exact hs name (h.tracked ▸ hname)

lemma eval (h : Refined W R s t) (hz : W z) (hfixed : Fixes env s t e)
    (he : s.eval env e = pure (.addr (.of S))) (hS : ∀ z, W z → z ∈ S) :
    ∃ S', t.eval env e = pure (.addr (.of S')) ∧ ∀ z, W z → z ∈ S' := by
  rcases eval_eq_addr he with ⟨rfl, hnull⟩ | ⟨lv, places, rfl, hplaces, hload⟩ |
    ⟨lv, places, rfl, hplaces, haddress⟩
  · exact ⟨S, by rw [hnull]; rfl, hS⟩
  · have hplaces' := (hfixed lv (.inl rfl)).trans hplaces
    obtain ⟨v, hv, hthin⟩ := h.loadPlaces hz hload
    cases hthin with
    | same => exact ⟨S, eval_read hplaces' hv, hS⟩
    | addr _ hB => exact ⟨_, eval_read hplaces' hv, hB⟩
  · exact ⟨S, eval_addrOf ((hfixed lv (.inr rfl)).trans hplaces) haddress, hS⟩

lemma insert {B : SortedSet Target} (h : Refined W R s t) (hc : R c)
    (hget : s.get c = .addr (.of S)) (hS : ∀ z, W z → z ∈ S) (hB : ∀ z, W z → z ∈ B) :
    Refined W R s { t with cells := t.cells.insert c (.addr (.of B)) } := by
  have hother : ∀ d, d ≠ c → State.get { t with cells := t.cells.insert c (.addr (.of B)) }
      d = t.get d := by
    intro d hd
    simp [State.get, getD_eq, get?_insert, hd]
  refine ⟨?_, fun d => ?_, fun d hd => ?_⟩
  · conv_lhs => rw [h.same]
  · by_cases hd : d = c
    · subst hd
      have hnew : State.get { t with cells := t.cells.insert d (.addr (.of B)) } d =
          .addr (.of B) := by
        simp [State.get, getD_eq, get?_insert]
      rw [hnew, hget]
      exact .addr hS hB
    · rw [hother d hd]
      exact h.values d
  · have hne : d ≠ c := fun heq => hd (heq ▸ hc)
    rw [hother d hne, h.others d hd]

lemma refineAddr (hs : s.TracksNumbers env) (h : Refined W R s t) (hz : W z)
    (hfixed : Fixes env s t e) (he : s.eval env e = pure (.addr (.of S))) (hS : ∀ z, W z → z ∈ S)
    (hT : ∀ z, W z → z ∈ T) (hR : ∀ c, s.Denotes env e c → R c) :
    ∃ u, t.refineAddr env e (.of T) = pure u ∧ Refined W R s u := by
  have hbottom := Value.isBottom_of_mem (hT z hz)
  unfold State.refineAddr
  rw [if_neg (by simp [hbottom])]
  rcases eval_eq_addr he with ⟨rfl, -⟩ | ⟨lv, places, rfl, hplaces, hload⟩ | ⟨lv, -, rfl, -, -⟩
  · exact ⟨t, rfl, h⟩
  · have hplaces' := (hfixed lv (.inl rfl)).trans hplaces
    simp only [refineLValue, hplaces', pure_bind]
    split
    next p =>
      split
      · exact ⟨t, rfl, h⟩
      next hcell =>
        simp only [or_eq_true, not_eq_true', not_or, not_eq_false] at hcell
        rw [Place.eq_ofCell hcell.1] at hplaces hload
        obtain ⟨hown, hget⟩ := get_of_loadPlaces hload
        obtain ⟨B, hB, hkept⟩ := (hget ▸ h.values p.cell).exists_addr hS
        have hinter : ∀ z, W z → z ∈ B.inter T := fun z hz =>
          mem_inter.2 ⟨hkept z hz, hT z hz⟩
        have hnew := Value.isBottom_of_mem (hinter z hz)
        refine ⟨_, ?_, h.insert (hR _ ⟨lv, rfl, hplaces⟩) hget hS hinter⟩
        rw [loadCell_of_isOwn (h.isOwn hown), pure_bind, hB]
        refine bind_eq_pure.2 ⟨_, rfl, bind_eq_pure.2 ⟨_, lift_eq_pure.2 (congrArg _ hnew), ?_⟩⟩
        exact lift_eq_pure.2 (refineCell_eq (h.isOwn hown) (h.tracksNumbers hs) hB)
    · exact ⟨t, rfl, h⟩
  · exact ⟨t, rfl, h⟩

end Refined

/-! ## Guards -/

/-- A cell that a comparison is about. -/
def Compared (env : Env) (s : State) (x y : Expr) (c : Cell) : Prop :=
  s.Denotes env x c ∨ s.Denotes env y c

/-- The designators of two expressions do not depend on the cells that are compared: they designate
the same whatever is in these cells. -/
def Steady (env : Env) (s : State) (x y : Expr) : Prop :=
  ∀ t : State, t = { s with cells := t.cells } →
    (∀ c, ¬ s.Compared env x y c → t.get c = s.get c) → Fixes env s t x ∧ Fixes env s t y

section Avoids

variable {R : Cell → Prop}

/-- A designator is found through pointers that are all read outside some cells. -/
def Avoids (env : Env) (s : State) (R : Cell → Prop) : LValue → Prop
  | .var _ => True
  | .field base _ => Avoids env s R base
  | .deref (.read lv) => Avoids env s R lv ∧
    ∃ places, s.resolve env lv = pure (some places) ∧ ∀ p ∈ places, ¬ R p.cell
  | _ => False

section

variable (hsame : t = { s with cells := t.cells })
include hsame

lemma load_congr {p : Place} (hget : t.get p.cell = s.get p.cell) :
    t.load env p = s.load env p := by
  obtain ⟨cells, rfl⟩ : ∃ cells, t = { s with cells := cells } := ⟨_, hsame⟩
  simp only [load, loadCell, hget]
  rfl

lemma loadPlaces_congr {places : List Place} (hget : ∀ p ∈ places, t.get p.cell = s.get p.cell) :
    t.loadPlaces env (some places) = s.loadPlaces env (some places) := by
  simp only [loadPlaces]
  generalize Value.bottom = acc
  induction places generalizing acc with
  | nil => rfl
  | cons p places ih =>
    obtain ⟨hp, hrest⟩ := List.forall_mem_cons.1 hget
    simp only [List.foldlM_cons, load_congr hsame hp]
    exact bind_congr fun v => ih hrest v

lemma Avoids.resolve_eq (hget : ∀ c, ¬ R c → t.get c = s.get c) :
    ∀ {lv : LValue}, Avoids env s R lv → t.resolve env lv = s.resolve env lv
  | .var _, _ => by simp only [resolve]
  | .field base f, h => by
    have hbase : t.resolve env base = s.resolve env base := resolve_eq hget h
    simp only [resolve, hbase]
  | .deref (.read lv), ⟨h, places, hplaces, houtside⟩ => by
    have hlv : t.resolve env lv = s.resolve env lv := resolve_eq hget h
    have hload : t.loadPlaces env (some places) = s.loadPlaces env (some places) :=
      loadPlaces_congr hsame fun p hp => hget p.cell (houtside p hp)
    have heval : t.eval env (.read lv) = s.eval env (.read lv) := by
      simp only [eval, hlv, hplaces, pure_bind, hload]
      rw [hsame]
      rfl
    simp only [resolve, heval]

end

lemma steady_of_avoids {lw : LValue} (hv : Avoids env s (s.Compared env (.read lv) (.read lw)) lv)
    (hw : Avoids env s (s.Compared env (.read lv) (.read lw)) lw) :
    s.Steady env (.read lv) (.read lw) := by
  refine fun t hsame hget => ⟨fun _ h => ?_, fun _ h => ?_⟩ <;> obtain h | h := h <;> cases h
  · exact hv.resolve_eq hsame hget
  · exact hw.resolve_eq hsame hget

end Avoids

lemma isBottom_of_refined {W : Target → Prop} {R : Cell → Prop} (h : Refined W R s t) :
    t.isBottom = s.isBottom := by
  rw [h.same]
  rfl

lemma guard_false_cmp : guard env false (.cmp op x y) s =
    guard env true (.cmp op.negate x y) s := by
  simp [guard]

section Guards

variable (hs : s.isBottom = false) (htracks : s.TracksNumbers env)
  (hx : s.eval env x = pure (.addr (.of S))) (hy : s.eval env y = pure (.addr (.of T)))
  (htruth : AddrSet.eqTruth (.of S) (.of T) = .unknown)
include hs htracks hx hy htruth

lemma guard_cmp (hop : op = .eq ∨ op = .ne) {W : Target → Prop} {R : Cell → Prop}
    (h : ∃ t, s.refineAddrs env op x y (.of S) (.of T) = pure t ∧ Refined W R s t) :
    ∃ t, guard env true (.cmp op x y) s = pure t ∧ Refined W R s t := by
  obtain ⟨t, ht, hrefined⟩ := h
  have hreachable : s.reachable = true := by
    simp only [isBottom, or_eq_false_iff, not_eq_false'] at hs
    exact hs.1
  refine ⟨t, ?_, hrefined⟩
  have hrelation := guardRelation_of_addr htracks hop hx (y := y) hrefined
  have hunknown := evalCond_cmp htracks hop hx hy htruth
  rcases hop with rfl | rfl <;>
    · simp only [guard, hreachable, Bool.not_true, false_eq_true, if_false, if_true, hunknown,
        pure_bind, hx, hy, Value.isAddr, Bool.or_self, Value.toAddr, ht, reduceCtorEq]
      exact lift_eq_pure.2 hrelation

lemma guard_eq (hsteady : s.Steady env x y) {z : Target} (hz : z ∈ S ∧ z ∈ T) :
    ∃ t, guard env true (.cmp .eq x y) s = pure t ∧
      Refined (fun z => z ∈ S ∧ z ∈ T) (s.Compared env x y) s t := by
  refine guard_cmp hs htracks hx hy htruth (.inl rfl) ?_
  have hself : Refined (fun z => z ∈ S ∧ z ∈ T) (s.Compared env x y) s s := .refl s
  obtain ⟨u, hu, hrefined⟩ := hself.refineAddr htracks hz (fun _ _ => rfl) hx (fun _ hz => hz.1)
    (fun z hz => mem_inter.2 hz) fun _ hc => .inl hc
  obtain ⟨t, ht, hrefined⟩ := hrefined.refineAddr htracks hz
    (hsteady u hrefined.same hrefined.others).2 hy (fun _ hz => hz.2)
    (fun z hz => mem_inter.2 hz.symm) fun _ hc => .inr hc
  exact ⟨t, bind_eq_pure.2 ⟨u, hu, ht⟩, hrefined⟩

/-- Guarding with the negation leaves some run: it refines only where one side is null, and then the
other side is something else, too. -/
lemma guard_ne (hsame : ¬ AddrSet.Same S T) (hp : p ∈ S) (hq : q ∈ T) :
    ∃ t, guard env true (.cmp .ne x y) s = pure t ∧ t.isBottom = false := by
  suffices hrefines : ∃ W R t, s.refineAddrs env .ne x y (.of S) (.of T) = pure t ∧
    Refined W R s t by
    obtain ⟨W, R, h⟩ := hrefines
    obtain ⟨t, ht, hrefined⟩ := guard_cmp hs htracks hx hy htruth (.inr rfl) h
    exact ⟨t, ht, (isBottom_of_refined hrefined).trans hs⟩
  have hself : ∀ A : SortedSet Target,
      Refined (fun z => z ∈ A ∧ z.isSome = true) (fun _ => True) s s := fun _ => .refl s
  unfold refineAddrs
  dsimp only
  split
  next hT =>
    obtain ⟨z, hz⟩ := exists_isSome hp fun hS => hsame ⟨none, rfl, hS, of.inj hT⟩
    obtain ⟨t, ht⟩ := (hself S).refineAddr htracks hz (fun _ _ => rfl) hx (fun _ hz => hz.1)
      (fun z hz => mem_filter.2 hz) fun _ _ => trivial
    exact ⟨_, _, t, ht⟩
  next =>
    split
    next hS =>
      obtain ⟨z, hz⟩ := exists_isSome hq fun hT => hsame ⟨none, rfl, of.inj hS, hT⟩
      obtain ⟨t, ht⟩ := (hself T).refineAddr htracks hz (fun _ _ => rfl) hy (fun _ hz => hz.1)
        (fun z hz => mem_filter.2 hz) fun _ _ => trivial
      exact ⟨_, _, t, ht⟩
    next => exact ⟨_, _, s, rfl, hself S⟩

end Guards

/-- Equality of pointers that may be equal is not decided.  Let two expressions have the targets `S`
and `T`, not one and the same definite address, of which some may alias; and let targets that alias
be the same.  If the designators do not depend on the cells that are compared, neither the equality
nor its negation is decided, and guarding with the equality leaves on both sides all targets that
may alias one of the other side. -/
theorem pointer_equality_undecided (hs : s.isBottom = false) (htracks : s.TracksNumbers env)
    (hx : s.eval env x = pure (.addr (.of S))) (hy : s.eval env y = pure (.addr (.of T)))
    (hsame : ¬ AddrSet.Same S T) (hp : p ∈ S) (hq : q ∈ T) (hpq : AddrSet.mayAlias p q = true)
    (hknown : ∀ p ∈ S, ∀ q ∈ T, AddrSet.mayAlias p q = true → p = q) (hsteady : s.Steady env x y) :
    s.check env (.cmp .eq x y) = pure .unknown ∧ s.check env (.cmp .ne x y) = pure .unknown ∧
    ∃ t, guard env true (.cmp .eq x y) s = pure t ∧ t.isBottom = false ∧
      ∃ S' T', t.eval env x = pure (.addr (.of S')) ∧ t.eval env y = pure (.addr (.of T')) ∧
      ∀ p ∈ S, ∀ q ∈ T, AddrSet.mayAlias p q = true → p ∈ S' ∧ q ∈ T' := by
  have htruth := eqTruth_of_mayAlias hp hq hpq hsame
  have hcommon : p ∈ S ∧ p ∈ T := ⟨hp, hknown p hp q hq hpq ▸ hq⟩
  obtain ⟨t, ht, hrefined⟩ := guard_eq hs htracks hx hy htruth hsteady hcommon
  obtain ⟨u, hu, hubottom⟩ := guard_ne hs htracks hx hy htruth hsame hp hq
  have htbottom : t.isBottom = false := (isBottom_of_refined hrefined).trans hs
  obtain ⟨hfixx, hfixy⟩ := hsteady t hrefined.same hrefined.others
  obtain ⟨S', hS', hkeptS⟩ := hrefined.eval hcommon hfixx hx fun _ hz => hz.1
  obtain ⟨T', hT', hkeptT⟩ := hrefined.eval hcommon hfixy hy fun _ hz => hz.2
  refine ⟨?_, ?_, t, ht, htbottom, S', T', hS', hT', fun p hp q hq hpq => ?_⟩
  · simp only [check, evalCond_cmp htracks (.inl rfl) hx hy htruth, pure_bind, guard_false_cmp,
      CmpOp.negate, hu, hubottom, ht, htbottom, false_eq_true, if_false]
  · simp only [check, evalCond_cmp htracks (.inr rfl) hx hy htruth, pure_bind, guard_false_cmp,
      CmpOp.negate, hu, hubottom, ht, htbottom, false_eq_true, if_false]
  · obtain rfl := hknown p hp q hq hpq
    exact ⟨hkeptS p ⟨hp, hq⟩, hkeptT p ⟨hp, hq⟩⟩

/-- The targets of three pointers of `main`: `p` and, through `q`, `r`. -/
def threePointers : State :=
  { unknown .none with
    cells := .ofList [
      (.ofLocal "main" "p", .addr (.of (.ofList [none, some (.ofLocal "main" "a")]))),
      (.ofLocal "main" "q", .addr (.cell (.ofLocal "main" "r"))),
      (.ofLocal "main" "r", .addr (.of (.ofList [some (.ofLocal "main" "a"),
        some (.ofLocal "main" "b")])))] }

/-- A function of a program without declarations. -/
def within (function : String) (modular : Bool) : Env where
  graph := {}
  settings := {}
  function
  thread := .main
  edge := 0
  modular

lemma tracksNumbers_within {function : String} {modular : Bool} (s : State) :
    s.TracksNumbers (within function modular) := by
  intro name hname
  simp [tracked, within] at hname

/-- Comparing `p` with `*q`, which may both be `&a`. -/
theorem pointer_equality_undecided_threePointers :
    threePointers.check (within "main" false) (.cmp .eq (.read (.var "p"))
      (.read (.deref (.read (.var "q"))))) = pure .unknown := by
  have hq : ¬ threePointers.Compared (within "main" false) (.read (.var "p"))
      (.read (.deref (.read (.var "q")))) (.ofLocal "main" "q") := by
    rintro (⟨lv, hlv, hcell⟩ | ⟨lv, hlv, hcell⟩)
    · cases hlv
      exact absurd (Step.done.inj hcell) (by decide)
    · cases hlv
      exact absurd (Step.done.inj hcell) (by decide)
  have hsteady : threePointers.Steady (within "main" false) (.read (.var "p"))
      (.read (.deref (.read (.var "q")))) :=
    steady_of_avoids trivial ⟨trivial, _, rfl, List.forall_mem_singleton.2 hq⟩
  have hmem : some (Cell.ofLocal "main" "a") ∈
      SortedSet.ofList [none, some (Cell.ofLocal "main" "a")] := by simp
  have hmem' : some (Cell.ofLocal "main" "a") ∈
      SortedSet.ofList [some (Cell.ofLocal "main" "a"), some (Cell.ofLocal "main" "b")] := by simp
  refine (pointer_equality_undecided rfl (tracksNumbers_within _) rfl rfl ?_ hmem hmem' rfl
    (fun p hp q hq hpq => eq_of_mayAlias hpq ?_ ?_) hsteady).1
  · rintro ⟨t, -, hS, -⟩
    have hnone : none ∈ SortedSet.singleton t := hS ▸ mem_ofList.2 List.mem_cons_self
    have hsome := hS ▸ hmem
    rw [SortedSet.mem_singleton] at hnone hsome
    cases hnone.trans hsome.symm
  · rcases List.mem_pair.1 (mem_ofList.1 hp) with rfl | rfl <;> rfl
  · rcases List.mem_pair.1 (mem_ofList.1 hq) with rfl | rfl <;> rfl

/-- The parameters of a function that is analysed without its callers, known not to be null. -/
def callersPointers : State :=
  { unknown .none with
    cells := .ofList [
      (.ofLocal "same" "p", .addr (.cell (.ofParam "same" "p"))),
      (.ofLocal "same" "q", .addr (.cell (.ofParam "same" "q")))] }

/-- Two pointers to objects of unknown callers may be equal, but their equality is refuted. -/
theorem callers_objects_decided :
    callersPointers.Steady (within "same" true) (.read (.var "p")) (.read (.var "q")) ∧
      ∃ (S T : SortedSet Target) (p q : Target),
        callersPointers.eval (within "same" true) (.read (.var "p")) = pure (.addr (.of S)) ∧
        callersPointers.eval (within "same" true) (.read (.var "q")) = pure (.addr (.of T)) ∧
        ¬ AddrSet.Same S T ∧ p ∈ S ∧ q ∈ T ∧ AddrSet.mayAlias p q = true ∧
        callersPointers.check (within "same" true)
          (.cmp .eq (.read (.var "p")) (.read (.var "q"))) = pure .false := by
  refine ⟨steady_of_avoids trivial trivial, _, _, some (.ofParam "same" "p"),
    some (.ofParam "same" "q"), rfl, rfl, ?_, SortedSet.mem_singleton.2 rfl,
    SortedSet.mem_singleton.2 rfl, rfl, rfl⟩
  rintro ⟨x, hdefinite, hS, -⟩
  have hmem : some (Cell.ofParam "same" "p") ∈ SortedSet.singleton x :=
    hS ▸ SortedSet.mem_singleton.2 rfl
  rw [← SortedSet.mem_singleton.1 hmem] at hdefinite
  cases hdefinite

end State

end StaticAnalysis
