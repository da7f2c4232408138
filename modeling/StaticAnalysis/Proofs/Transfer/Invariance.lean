import StaticAnalysis.Proofs.Transfer.Readings

/-!
# What transfer functions keep

Transfer functions store values, change relations and hand out addresses.  A property of states that
survives these updates, as long as the values come from a given set, survives every transfer
function:  there is one lemma per function of the transfer modules, and each follows its function
from top to bottom.  What a property owes is collected in `Upkeep`, and for the functions that
evaluate in `Invariance`.
-/

namespace StaticAnalysis

open Fault SortedMap Step

/-- The values in a shared value are in a set; there is no state in it. -/
def GlobalValue.In (V : Value → Prop) : GlobalValue → Prop
  | .value v => V v
  | .parts m => ∀ k v, m.get? k = some v → V v
  | .summary t => V t.ret ∧ ∀ c v, t.writes.get? c = some v → V v
  | .state _ => False
  | _ => True

/-- The expressions and conditions of an action that is not a call or the start of a thread. -/
def Language.acts (L : Language) : Action → Prop
  | .assign lv e => L.exprs (.read lv) ∧ L.exprs e
  | .guard c | .check _ c => L.conds c
  | .ret (some e) => L.exprs e
  | .havoc lv | .alloc lv => L.exprs (.read lv)
  | _ => True

namespace State

/-- What other threads can see in a state they can see in another. -/
structure Spreads (s r : State) : Prop where
  escaped : ∀ c ∈ s.escaped, c ∈ r.escaped
  multithreaded : s.multithreaded = true → r.multithreaded = true

/-- Values are those of another state or from a set, relations are the same, and other threads see
no less. -/
structure Amends (V : Value → Prop) (s t : State) : Prop where
  cells : ∀ c v, t.cells.get? c = some v → s.cells.get? c = some v ∨ V v
  copies : ∀ c p, t.copies.get? c = some p → s.copies.get? c = some p ∨ V p.value
  kept : ∀ k v, t.kept.get? k = some v → s.kept.get? k = some v ∨ V v
  relation : t.relation = s.relation
  spreads : s.Spreads t

/-- The places of a designator that indexes nothing are cells. -/
def Cells (places : Option (List Place)) : Prop := ∀ l, places = some l → ∀ p ∈ l, p.isCell = true

/-- What a property `I` of states whose values are in `V` owes to stores.  Where relations or arrays
are at work, `V` must not exclude anything. -/
structure Upkeep (C : Contract) (env : Env) (V : Value → Prop) (I : State → Prop) : Prop where
  top : V .top
  bottom : V .bottom
  addr : ∀ a, V (.addr a)
  havoc : ∀ {v : Value}, V v → V v.havoc
  join : ∀ {v w u : Value}, V v → V w → v.join w = .ok u → V u
  meet : ∀ {v w u : Value}, V v → V w → v.meet w = .ok u → V u
  meetTarget : ∀ {v w o}, V v → V w → meetTarget env v w = .ok o → ∀ u, o = some u → V u
  value : ∀ {key}, (Shared.value key).Meets C V
  writeLocks : ∀ {c}, (Shared.writeLocks c).Meets C fun _ => True
  parts : ∀ {mutex c}, (Shared.parts mutex c).Meets C fun parts => ∀ k v, parts.get? k = some v →
    V v
  offers : ∀ {key x}, x.In V → (∀ k, x.kind? = some k → k = key.kind) → C.offers key x
  cells : ∀ {s : State}, I s → ∀ c v, s.cells.get? c = some v → V v
  copies : ∀ {s : State}, I s → ∀ c p, s.copies.get? c = some p → V p.value
  kept : ∀ {s : State}, I s → ∀ k v, s.kept.get? k = some v → V v
  amend : ∀ {s t : State}, I s → s.Amends V t → I t
  merge : ∀ {s t r : State}, I s → I t → s.join t = .ok r → I r
  escape : ∀ {s : State} {function cells}, I s → I (s.escape function cells)
  tracked : ∀ {s : State} {name}, I s → s.tracked env name = true →
    (∀ v, V v) ∧ ∀ relation, I { s with relation }
  unconstrained : ∀ {s : State}, I s → I { s with relation := .unconstrained env.settings.relation }

/-- What a property of states whose values are in `V` owes to transfer functions of a language. -/
structure Invariance (L : Language) (C : Contract) (env : Env) (V : Value → Prop)
    (I : State → Prop) : Prop
    extends Upkeep C env V I where
  field : ∀ {lv f}, L.exprs (.read lv) → L.exprs (.read (.field lv f))
  unknown : L.exprs .unknown
  int : ∀ {i : IntVal}, i.Tight → V (.int i)
  restrict : ∀ {d} {i j : IntVal}, V (.int i) → i.restrict d = .ok j → V (.int j)
  dividends : ∀ {i r : IntVal} {n m : Int}, V (.int i) → i.isBottom = false → i.constant? = some n →
    dividends n m = .ok r → V (.int r)
  comparison : ∀ {op x y r}, V x → V y → comparisonTargets op x.toInt y.toInt = .ok r →
    V (.int r.1) ∧ V (.int r.2)
  guardRelation : ∀ {s r : State} {op a b}, I s → s.guardRelation env op a b = .ok r → I r
  eval : ∀ {s : State}, I s → ∀ e, L.exprs e → (s.eval env e).Meets C V
  evalCond : ∀ {s : State}, I s → ∀ c, L.conds c → (s.evalCond env c).Meets C fun _ => True
  resolve : ∀ {s : State}, I s → ∀ lv, L.exprs (.read lv) →
    (s.resolve env lv).Meets C fun places => Cells places ∨ ∀ v, V v
  readLValue : ∀ {s : State}, I s → ∀ lv, L.exprs (.read lv) → (s.readLValue env lv).Meets C V

variable {L : Language} {C : Contract} {env : Env} {V : Value → Prop} {I : State → Prop} {s t r : State}
  {v u : Value} {c : Cell} {key : SharedKey} {mutex callee : String} {strong : Bool} {lv : LValue}
  {e a b : Expr} {op : CmpOp} {args : List Expr} {arg : String → Option Value}

namespace Upkeep

variable (h : Upkeep C env V I)
include h

/-! ## Updates -/

lemma frame (hs : I s) (hcells : t.cells = s.cells) (hcopies : t.copies = s.copies)
    (hkept : t.kept = s.kept) (hrelation : t.relation = s.relation) (hspreads : s.Spreads t) :
    I t :=
  h.amend hs ⟨fun _ _ hv => .inl (hcells ▸ hv), fun _ _ hp => .inl (hcopies ▸ hp),
    fun _ _ hv => .inl (hkept ▸ hv), hrelation, hspreads⟩

lemma stop (hs : I s) : I s.stop := h.frame hs rfl rfl rfl rfl ⟨fun _ => id, id⟩

lemma get (hs : I s) (c : Cell) : V (s.get c) := by
  rw [State.get, getD_eq]
  cases hv : s.cells.get? c with
  | none => exact h.top
  | some v => exact h.cells hs c v hv

lemma set (hs : I s) (hv : V v) (hr : s.set c v = .ok r) : I r := by
  obtain ⟨cells, rfl, hcells⟩ := set_spec hr
  refine h.amend hs ⟨fun d w hw => ?_, fun _ _ => .inl, fun _ _ => .inl, rfl, ⟨fun _ => id, id⟩⟩
  rcases hcells d w hw with ⟨-, rfl⟩ | ⟨-, hw⟩
  exacts [.inr hv, .inl hw]

lemma insertCopy {p : PrivateCopy} (hs : I s) (hp : V p.value) :
    I { s with copies := s.copies.insert c p } := by
  refine h.amend hs ⟨fun _ _ => .inl, fun d q hq => ?_, fun _ _ => .inl, rfl, ⟨fun _ => id, id⟩⟩
  rcases get?_insert_cases hq with rfl | hq
  exacts [.inr hp, .inl hq]

lemma eraseCopy (hs : I s) : I { s with copies := s.copies.erase c } :=
  h.amend hs ⟨fun _ _ => .inl, fun _ _ hq => .inl (get?_of_erase hq), fun _ _ => .inl, rfl,
    ⟨fun _ => id, id⟩⟩

lemma updateKept {k : KeptKey} {b : Bool} (hs : I s) (hv : V v) :
    I { s with kept := if b then s.kept.insert k v else s.kept.erase k } := by
  refine h.amend hs ⟨fun _ _ => .inl, fun _ _ => .inl, fun d w hw => ?_, rfl, ⟨fun _ => id, id⟩⟩
  cases b with
  | false => exact .inl (get?_of_erase hw)
  | true =>
    rcases get?_insert_cases hw with rfl | hw
    exacts [.inr hv, .inl hw]

/-! ## Publishing -/

lemma publish {x : GlobalValue} (hx : x.In V)
    (hkind : ∀ k, x.kind? = some k → k = (GlobalKey.shared key).kind) :
    (Shared.publish key x).Meets C fun _ => True :=
  (meets_contribute (h.offers hx hkind)).mono fun _ _ => trivial

lemma publishValue (hv : V v) (hkey : (GlobalKey.shared key).kind = .value) :
    (Shared.publish key (.value v)).Meets C fun _ => True :=
  h.publish hv (by simp [GlobalValue.kind?, hkey])

lemma publishPart {part : Part} (hv : V v) :
    (Shared.publish (.unlocked mutex c) (.parts (.singleton part v))).Meets C fun _ => True := by
  refine h.publish (fun k w hw => ?_) (by simp [GlobalValue.kind?, GlobalKey.kind])
  rw [get?_singleton] at hw
  split at hw
  · cases hw
    exact hv
  · cases hw

lemma recordAccess {write : Bool} : (s.recordAccess env c write).Meets C fun _ => True :=
  h.publish trivial (by simp [GlobalValue.kind?, GlobalKey.kind])

lemma view : (s.view env c).Meets C V := by
  unfold State.view
  split
  · exact h.value
  · refine h.writeLocks.bind fun p _ => ?_
    split <;> exact h.value

lemma current (hs : I s) : (s.current env c).Meets C V := by
  unfold State.current
  split
  next p hp =>
    split
    · exact meets_pure (h.copies hs c p hp)
    · exact h.view.bind fun w hw => meets_lift fun u hu => h.join (h.copies hs c p hp) hw hu
  next => exact h.view

lemma writeGlobal (hs : I s) (hv : V v) : (s.writeGlobal env c v).Meets C I := by
  have hlast : ((do
      let writes ← Shared.writeLocks c
      if env.settings.publication ≠ .none ∧ s.holdsProtection writes then
        return { s with copies := s.copies.insert c ⟨v, true⟩ }
      else return { s with copies := s.copies.erase c }) : Step State).Meets C I := by
    refine h.writeLocks.bind fun p _ => ?_
    split
    exacts [meets_pure (h.insertCopy hs hv), meets_pure (h.eraseCopy hs)]
  refine h.recordAccess.bind fun _ _ => ?_
  refine (h.publish (x := .protecting _) trivial (by simp [GlobalValue.kind?, GlobalKey.kind])).bind
    fun _ _ => ?_
  refine (h.publishValue hv rfl).bind fun _ _ => ?_
  split
  · exact (h.publishValue hv rfl).bind fun _ _ => hlast
  · exact hlast

lemma refineCopy (hs : I s) (hv : V v) : I (s.refineCopy c v) := by
  unfold State.refineCopy
  split
  · split
    exacts [h.insertCopy hs hv, hs]
  · exact hs

lemma joinAll {κ : Type} [Ord κ] [Std.TransOrd κ] [Std.LawfulEqOrd κ] {m : SortedMap κ Value}
    (hm : ∀ k v, m.get? k = some v → V v) (hu : joinAll m.values = .ok u) : V u := by
  refine foldlM_induct (fun _ v _ hv ha hu => h.join ha ?_ hu) h.bottom hu
  obtain ⟨⟨k, w⟩, hmem, rfl⟩ := List.mem_map.1 hv
  exact hm k w (get?_eq_some_iff.2 hmem)

section

variable (hs : I s)
include hs

lemma unlockedView : (s.unlockedView env mutex c).Meets C V := by
  refine h.parts.bind fun parts hparts => ?_
  have hown : ∀ own, V (parts.getD own .bottom) := fun own => of_getD hparts h.bottom
  split
  · exact meets_lift fun u hu => h.joinAll hparts hu
  · refine meets_lift_bind fun others hothers => meets_lift fun u hu => h.join ?_ ?_ hu
    · exact h.joinAll (fun k v hv => hparts k v (get?_of_filter hv)) hothers
    · split
      exacts [of_getD (h.kept hs) (hown _), hown _]

lemma acquire : (s.acquire env mutex).Meets C I := by
  unfold State.acquire
  split
  · exact meets_pure hs
  · refine meets_foldlM (fun s c _ hs => ?_) hs
    refine h.writeLocks.bind fun p _ => ?_
    split
    · refine (h.current hs).bind fun v hv => ?_
      extract_lets pending last rest
      have hlast : ∀ v : Value, V v → (last v).Meets C I := fun v hv => meets_pure
        (h.insertCopy hs hv)
      have hrest : ∀ published : Value, V published → (rest published).Meets C I := by
        intro published hpub
        refine meets_lift_bind fun b _ => ?_
        split
        · exact hlast v hv
        · exact meets_lift_bind fun u hu => hlast u (h.meet hv hpub hu)
      split
      · exact hrest _ h.bottom
      · exact (h.unlockedView hs).bind hrest
    · exact meets_pure hs

lemma release : (s.release env mutex).Meets C I := by
  unfold State.release
  extract_lets strategy
  split
  · exact meets_pure hs
  · -- The copies that are walked are those from before the first one is published.
    have hcopies := h.copies hs
    refine meets_foldlM (fun s e he hs => ?_) hs
    obtain ⟨c, p⟩ := e
    have hp : V p.value := hcopies c p (get?_eq_some_iff.2 he)
    dsimp -zeta only
    extract_lets _ publish
    have hpublish : ∀ v : Value, V v → (publish v).Meets C I := by
      intro v hv
      refine (h.publishValue hv rfl).bind fun _ _ => ?_
      extract_lets _ rest
      have hrest : (rest ()).Meets C I := by
        refine h.writeLocks.bind fun writes _ => ?_
        extract_lets last
        have hlast : ∀ s : State, I s → (last () s).Meets C I := by
          intro s hs
          change Meets _ _ (if _ then _ else _)
          split
          exacts [meets_pure hs, meets_pure (h.eraseCopy hs)]
        split
        · refine (h.publishPart hv).bind fun _ _ => ?_
          split
          · exact hlast _ (h.updateKept hs hv)
          · exact hlast s hs
        · exact hlast s hs
      split
      · exact (h.publishValue hv rfl).bind fun _ _ => hrest
      · exact hrest
    split
    · exact hpublish _ hp
    · refine h.view.bind fun w hw => ?_
      exact meets_lift_bind fun u hu => hpublish u (h.join hp hw hu)

lemma announce (hv : V v) : (s.announce env c v).Meets C I := by
  refine (h.publishValue hv rfl).bind fun _ _ => (h.publishValue hv rfl).bind fun _ _ => ?_
  split
  · exact meets_pure hs
  · refine meets_foldlM (fun s m _ hs => ?_) hs
    refine (h.publishPart hv).bind fun _ _ => ?_
    split
    · extract_lets keep
      have hkeep : ∀ k : Value, V k → (keep k).Meets C I :=
        fun k hk => meets_pure (h.updateKept (b := true) hs hk)
      split
      next k hk => exact meets_lift_bind fun u hu => hkeep u (h.join (h.kept hs _ k hk) hv hu)
      next => exact hkeep v hv
    · exact meets_pure hs

lemma announceGlobals : (s.announceGlobals env).Meets C fun r => I r ∧ r.multithreaded := by
  refine (meets_foldlM (fun s c _ hs => h.announce hs (h.get hs c)) hs).bind fun s hs => ?_
  exact meets_pure ⟨h.amend hs ⟨fun _ _ hv => .inl (get?_of_filter hv), fun _ _ => .inl,
    fun _ _ => .inl,
    rfl, ⟨fun _ => id, fun _ => rfl⟩⟩, rfl⟩

lemma announcePending : (s.announcePending env).Meets C I := by
  have hcopies := h.copies hs
  refine meets_foldlM (fun s e he hs => h.announce hs ?_) hs
  exact hcopies e.1 e.2 (get?_of_filter (get?_eq_some_iff.2 he))

end

lemma recordEffect {effect : Summary} (heffect : (GlobalValue.summary effect).In V) :
    (recordEffect env effect).Meets C fun _ => True :=
  (meets_contribute (h.offers heffect (by simp [GlobalValue.kind?, GlobalKey.kind]))).mono
    fun _ _ => trivial

lemma effectOfRead (c : Cell) : (GlobalValue.summary (.ofRead c)).In V :=
  ⟨h.bottom, fun d w hw => by simp [Summary.ofRead, Summary.bottom] at hw⟩

lemma loadCell (hs : I s) : (s.loadCell env c).Meets C V := by
  unfold State.loadCell
  split
  · exact (h.recordEffect (h.effectOfRead c)).bind fun _ _ => meets_pure h.top
  split
  · exact h.recordAccess.bind fun _ _ => h.current hs
  split
  exacts [meets_pure h.top, meets_pure (h.get hs c)]

/-! ## Assignment -/

lemma syncRelation (hs : I s) (hr : s.syncRelation env c = .ok r) : I r := by
  unfold State.syncRelation at hr
  split at hr
  · split at hr
    next htracked =>
      obtain ⟨relation, -, hr⟩ := bind_eq_ok.1 hr
      cases hr
      exact (h.tracked hs htracked.2).2 relation
    next =>
      cases hr
      exact hs
  · cases hr
    exact hs

lemma escapeValue (hs : I s) (hr : s.escapeValue env v = .ok r) : I r := by
  obtain ⟨cells, -, hr⟩ := bind_eq_ok.1 hr
  split at hr
  · obtain ⟨reach, -, hr⟩ := bind_eq_ok.1 hr
    cases hr
    exact h.escape hs
  · cases hr
    exact h.escape hs

/-- The addresses in a value are handed out before it is stored where other threads can see it. -/
lemma setCell_of_escape (hv : V v) (hs : (env.modular = false → s.multithreaded →
      (c.isGlobal || c.isHeap || s.isEscaped c) = false) → I s)
    (hescape : ∀ t, s.escapeValue env v = .ok t → I t) :
    (s.setCell env c v strong).Meets C I := by
  unfold State.setCell
  split
  next hcaller =>
    have hwrite : (GlobalValue.summary (.ofWrite c v)).In V := by
      refine ⟨h.bottom, fun d w hw => ?_⟩
      rw [Summary.ofWrite, get?_singleton] at hw
      split at hw
      · cases hw
        exact hv
      · cases hw
    refine (h.recordEffect hwrite).bind fun _ _ => meets_pure (hs fun hmodular => ?_)
    simp [ofCaller, hmodular] at hcaller
  extract_lets shared rest
  have hrest : ∀ s : State, I s → (rest s).Meets C I := by
    intro s hs
    have hset : ∀ u : Value, V u → (liftM (s.set c u) : Step State).Meets C I :=
      fun u hu => meets_lift fun r hr => h.set hs hu hr
    have hweaken : ∀ u, weaken strong v (s.get c) = .ok u → V u := by
      intro u hu
      unfold weaken at hu
      split at hu
      · cases hu
        exact hv
      · exact h.join hv (h.get hs c) hu
    change Meets _ _ (if _ then _ else _)
    split
    · split
      · exact h.writeGlobal hs hv
      · refine (h.current hs).bind fun w hw => meets_lift_bind fun u hu => ?_
        exact h.writeGlobal hs (h.join hv hw hu)
    split
    · exact meets_lift_bind fun u hu => hset u (hweaken u hu)
    split
    · exact meets_pure hs
    · refine meets_lift_bind fun u hu => (hset u (hweaken u hu)).bind fun r hr => ?_
      exact meets_lift fun r' hr' => h.syncRelation hr hr'
  split
  · exact meets_lift_bind fun t ht => hrest t (hescape t ht)
  next hshared =>
    refine hrest s (hs fun _ hthreads => ?_)
    rw [hthreads, Bool.true_and] at hshared
    exact Bool.eq_false_iff.2 hshared

lemma setCell (hs : I s) (hv : V v) : (s.setCell env c v strong).Meets C I :=
  h.setCell_of_escape hv (fun _ => hs) fun _ ht => h.escapeValue hs ht

lemma store {places : List Place} (hs : I s) (hv : V v)
    (hplaces : (∀ p ∈ places, p.isCell = true) ∨ ∀ v, V v) : (s.store env places v).Meets C I := by
  unfold State.store
  extract_lets strong
  refine meets_foldlM (fun s p hp hs => ?_) hs
  split
  · exact h.setCell hs hv
  next hcell =>
    have hall := hplaces.resolve_left fun hcells => hcell (hcells p hp)
    refine Meets.bind (Q := fun _ => True) ?_ fun array _ => meets_lift_bind fun written _ => ?_
    · refine (h.loadCell hs).bind fun w _ => ?_
      split <;> trivial
    · exact h.setCell hs (hall _)

lemma havocAll (hs : I s) : (s.havocAll env).Meets C I := by
  unfold State.havocAll
  refine Meets.bind (Q := I) ?_ fun s hs => ?_
  · exact meets_foldlM (fun s c _ hs => meets_lift fun r hr => h.set hs (h.havoc (h.get hs c)) hr)
      hs
  extract_lets s' rest
  have hs' : I s' := h.unconstrained hs
  have hrest : (rest ()).Meets C I := by
    change Meets _ _ (if _ then _ else _)
    split
    · exact meets_foldlM (fun s c _ hs => h.writeGlobal hs h.top) hs'
    · exact meets_pure hs'
  split
  · exact (h.recordEffect ⟨h.top, fun c v hv => by simp [Summary.unknown] at hv⟩).bind fun _ _ =>
      hrest
  · exact hrest

lemma assignTracked {name : String} {relation : Relation} {i : IntVal} (hs : I s)
    (hname : s.trackedVar? env lv = some name)
    (hr : { s with relation }.set (env.varCell name) (.int i) = .ok r) : I r := by
  unfold trackedVar? at hname
  split at hname
  · split at hname
    next htracked =>
      obtain ⟨hall, hrelation⟩ := h.tracked hs htracked
      exact h.set (hrelation relation) (hall _) hr
    next => cases hname
  · cases hname

lemma refineCell (hs : I s) (hv : V v) (hr : s.refineCell env c v = .ok r) : I r := by
  unfold State.refineCell at hr
  split at hr
  · cases hr
    exact hs
  split at hr
  · cases hr
    exact h.refineCopy hs hv
  split at hr
  · cases hr
    exact hs
  obtain ⟨t, ht, hr⟩ := bind_eq_ok.1 hr
  have ht := h.set hs hv ht
  split at hr
  · split at hr
    next htracked =>
      obtain ⟨relation, -, hr⟩ := bind_eq_ok.1 hr
      cases hr
      exact h.frame ((h.tracked ht htracked.2).2 relation) rfl rfl rfl rfl ⟨fun _ => id, id⟩
    next =>
      cases hr
      exact ht
  · cases hr
    exact ht

lemma instantiate (hv : V v) : V (instantiate callee arg v) := by
  unfold State.instantiate
  split
  exacts [h.addr _, hv]

lemma applyWrite (hs : I s) (hv : V v) : (applyWrite env callee arg s c v).Meets C I := by
  have hv' : V (State.instantiate callee arg v) := h.instantiate hv
  unfold State.applyWrite
  extract_lets v'
  split
  · exact h.setCell hs hv'
  · split
    · exact meets_pure hs
    split
    · exact meets_foldlM (fun s t _ hs => h.setCell hs hv') hs
    · exact h.havocAll hs
  · exact meets_pure hs

lemma applyUnknown {values : List Value} (hs : I s) : (s.applyUnknown env values).Meets C I := by
  unfold State.applyUnknown
  refine Meets.bind (Q := I) (meets_foldlM (fun s c _ hs => h.setCell hs h.top) hs) fun s hs => ?_
  extract_lets havoc
  have hhavoc : ∀ reach, (havoc reach).Meets C I := by
    intro reach
    cases reach with
    | none => exact h.havocAll hs
    | some cells => exact meets_foldlM (fun s c _ hs => h.setCell hs h.top) hs
  refine meets_lift_bind fun roots _ => ?_
  split
  · exact meets_lift_bind fun reach _ => hhavoc reach
  · exact hhavoc none

lemma joinThread {function : String} (hs : I s) : I (s.joinThread function) := by
  unfold State.joinThread
  split
  exacts [h.frame hs rfl rfl rfl rfl ⟨fun _ => id, id⟩, hs]

end Upkeep

namespace Invariance

variable (h : Invariance L C env V I)
include h

/-! ## Designators -/

lemma storeLValue (hs : I s) (hv : V v) (hlv : L.exprs (.read lv)) :
    (s.storeLValue env lv v).Meets C I := by
  refine (h.resolve hs lv hlv).bind fun places hplaces => ?_
  split
  · exact h.store hs hv (hplaces.imp_left fun hcells => hcells _ rfl)
  · exact h.havocAll hs

lemma assignValue (hs : I s) (hv : V v) (hlv : L.exprs (.read lv)) :
    (s.assignValue env lv v).Meets C I := by
  refine meets_lift_bind fun b _ => ?_
  split
  · exact meets_pure (h.stop hs)
  split
  next name hname =>
    exact meets_lift_bind fun relation _ => meets_lift fun r hr => h.assignTracked hs hname hr
  next => exact h.storeLValue hs hv hlv

lemma assignScalar (hs : I s) (hlv : L.exprs (.read lv)) (he : L.exprs e) :
    (s.assignScalar env lv e).Meets C I := by
  refine (h.eval hs e he).bind fun v hv => meets_lift_bind fun b _ => ?_
  split
  · exact meets_pure (h.stop hs)
  split
  next name hname =>
    refine meets_lift_bind fun form _ => meets_lift_bind fun relation _ => ?_
    exact meets_lift_bind fun bounded _ => meets_lift fun r hr => h.assignTracked hs hname hr
  next => exact h.storeLValue hs hv hlv

lemma assignWithin (depth : Nat) (hs : I s) (hlv : L.exprs (.read lv)) (he : L.exprs e) :
    (assignWithin env depth s lv e).Meets C I := by
  induction depth generalizing s lv e with
  | zero => exact h.assignScalar hs hlv he
  | succ depth ih =>
    unfold State.assignWithin
    split
    next heq _ =>
      cases heq
      refine meets_foldlM (fun s d _ hs => ih hs (h.field hlv) ?_) hs
      cases e with
      | read lv => exact h.field he
      | _ => exact h.unknown
    next => exact h.assignScalar hs hlv he

/-! ## Conditions as constraints -/

lemma refineLValue {target : Value} (hs : I s) (hlv : L.exprs (.read lv)) (htarget : V target) :
    (s.refineLValue env lv target).Meets C I := by
  refine (h.resolve hs lv hlv).bind fun places _ => ?_
  split
  next p =>
    split
    · exact meets_pure hs
    refine (h.loadCell hs).bind fun x hx => meets_lift_bind fun o ho => ?_
    split
    · exact meets_pure hs
    next v =>
      refine meets_lift_bind fun b _ => ?_
      split
      · exact meets_pure (h.stop hs)
      · exact meets_lift fun r hr => h.refineCell hs (h.meetTarget hx htarget ho v rfl) hr
  next => exact meets_pure hs

lemma refineAddr {target : AddrSet} (hs : I s) (he : L.exprs e) :
    (s.refineAddr env e target).Meets C I := by
  unfold State.refineAddr
  split
  · exact meets_pure (h.stop hs)
  · split
    · exact h.refineLValue hs he (h.addr _)
    · exact meets_pure hs

lemma refineAddrs {x y : AddrSet} (hs : I s) (ha : L.exprs a) (hb : L.exprs b) :
    (s.refineAddrs env op a b x y).Meets C I := by
  cases op with
  | eq => exact (h.refineAddr hs ha).bind fun s hs => h.refineAddr hs hb
  | ne =>
    unfold State.refineAddrs
    dsimp only
    split_ifs
    exacts [h.refineAddr hs ha, h.refineAddr hs hb, meets_pure hs]
  | _ => exact meets_pure hs

lemma refines : (Reading.silent L I V fun i => V (.int i)).Refines C env where
  eval hs e he := (h.eval hs e he).mono fun _ hv => ⟨hv, False.elim⟩
  evalCond hs c hc := (h.evalCond hs c hc).mono fun _ _ => False.elim
  stop := h.stop
  join hs ht hr := ⟨h.merge hs ht hr, fun hd => hd.elim id id⟩
  isBottom _ := False.elim
  tight := h.int
  dividends := h.dividends
  comparison := h.comparison
  hits _ _ _ := False.elim
  lvalue hs hlv hi := (h.refineLValue hs hlv hi).mono fun _ hr => ⟨hr, False.elim⟩
  addrs hs ha hb _ _ _ := (h.refineAddrs hs ha hb).mono fun _ hr => ⟨hr, False.elim⟩
  relation hs hr := ⟨h.guardRelation hs hr, False.elim⟩

lemma guard (hs : I s) (holds : Bool) {c : Cond} (hc : L.conds c) :
    (guard env holds c s).Meets C I :=
  (Reading.restricts_guard h.refines holds c hc hs).mono fun _ hr => hr.mem

/-! ## Calls -/

lemma evalArgs (hs : I s) (hargs : ∀ e ∈ args, L.exprs e) :
    (s.evalArgs env args).Meets C fun vs => ∀ v ∈ vs, V v :=
  meets_mapM fun e he => h.eval hs e (hargs e he)

lemma bindParam {entry : State} {param : VarDecl} {arg : Option (Expr × Value)}
    (hread : ∀ lv, L.exprs (.read lv) → (s.readLValue env lv).Meets C V) (hentry : I entry)
    (harg : ∀ a, arg = some a → L.exprs a.1 ∧ V a.2) :
    (s.bindParam env callee entry param arg).Meets C I := by
  have hfields : ∀ (path : List String) lv, L.exprs (.read lv) →
      L.exprs (.read (path.foldl .field lv)) := by
    intro path
    induction path with
    | nil => exact fun _ => id
    | cons f path ih => exact fun lv hlv => ih (.field lv f) (h.field hlv)
  unfold State.bindParam
  extract_lets base
  split
  · refine meets_foldlM (fun entry path _ hentry => ?_) hentry
    refine (hread _ (hfields path _ (harg _ rfl).1)).bind fun v hv => ?_
    exact meets_lift fun r hr => h.set hentry hv hr
  · refine meets_lift_bind fun i hi => meets_lift fun r hr => h.set hentry (v := .int i) ?_ hr
    exact h.restrict (harg _ rfl).2 hi
  · exact meets_lift fun r hr => h.set hentry (harg _ rfl).2 hr
  · exact meets_lift fun r hr => h.set hentry h.top hr

lemma applySummary {summary : Summary} {target : Option LValue} (hs : I s)
    (hsummary : (GlobalValue.summary summary).In V) (hargs : ∀ e ∈ args, L.exprs e)
    (htarget : ∀ lv, target = some lv → L.exprs (.read lv)) :
    (s.applySummary env callee summary args target).Meets C fun r => r = unreachable ∨ I r := by
  unfold State.applySummary
  split
  · exact meets_pure (.inl rfl)
  refine Meets.mono (Q := I) ?_ fun _ => .inr
  refine (h.evalArgs hs hargs).bind fun values hvalues => ?_
  extract_lets params arg assign
  have hassign : ∀ s : State, I s → (assign s).Meets C I := by
    intro s hs
    dsimp only [assign]
    cases target with
    | none => exact meets_pure hs
    | some lv =>
      refine h.assignValue hs ?_ (htarget lv rfl)
      split
      exacts [h.top, h.instantiate hsummary.1]
  split
  · exact (h.applyUnknown hs).bind hassign
  · have hwrites : Meets C I (summary.writes.entries.foldlM
        (fun s e => State.applyWrite env callee arg s e.1 e.2) s) :=
      meets_foldlM (fun s e he hs => h.applyWrite hs (hsummary.2 e.1 e.2 (get?_eq_some_iff.2 he)))
        hs
    split
    · refine (meets_forM fun c _ => h.recordEffect (h.effectOfRead c)).bind fun _ _ => ?_
      exact hwrites.bind hassign
    · exact hwrites.bind hassign

/-! ## Actions -/

lemma act {a : Action} (hs : I s) (ha : L.acts a) : (s.act env a).Meets C I := by
  cases a with
  | assign lv e => exact h.assignWithin _ hs ha.1 ha.2
  | guard c => exact h.guard hs true ha
  | check id c => exact (h.evalCond hs c ha).bind fun _ _ => meets_pure hs
  | ret e =>
    cases e with
    | none => exact meets_pure hs
    | some e => exact (h.eval hs e ha).bind fun v hv => meets_lift fun r hr => h.set hs hv hr
  | lock m =>
    refine meets_lift_bind fun locks _ => ?_
    have hs' : I { s with locks } := h.frame hs rfl rfl rfl rfl ⟨fun _ => id, id⟩
    dsimp only
    split
    exacts [h.acquire hs', meets_pure hs']
  | unlock m =>
    have hs' : I { s with locks := s.locks.unlock m (env.graph.mutexKind m) } :=
      h.frame hs rfl rfl rfl rfl ⟨fun _ => id, id⟩
    dsimp only [State.act]
    split
    exacts [h.release hs', meets_pure hs']
  | join function => exact meets_pure (h.joinThread hs)
  | havoc lv =>
    refine h.storeLValue hs ?_ ha
    split
    exacts [h.addr _, h.top]
  | alloc lv => exact h.assignValue hs (h.addr _) ha
  | _ => exact meets_pure hs

lemma step {a : Action} (hs : I s) (ha : L.acts a) : (s.step env a).Meets C I := by
  unfold State.step
  split
  · exact meets_pure hs
  · exact (h.act hs ha).map fun r hr => h.frame hr rfl rfl rfl rfl ⟨fun _ => id, id⟩

end Invariance
end State
end StaticAnalysis
