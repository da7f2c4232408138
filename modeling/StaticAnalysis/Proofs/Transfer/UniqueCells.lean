import StaticAnalysis.Proofs.Memory.Admission
import StaticAnalysis.Proofs.Runs.Memories

/-!
# Cells that stand for one object

The analysis takes a local or global variable for one object, and draws on that three times: a store
through a designator that can only denote the variable replaces its value, a condition on the
variable refines its value, and two pointers to it are equal.

All three are sound on memories in which the name of a variable is the name of at most one object.
The activations of a recursive function have their locals under the same names, and a store to a
local of one of them is then taken for a store to those of all.
-/

namespace StaticAnalysis

open AddrSet List Memory SortedMap Value

/-! ## Distinct objects -/

namespace Memory

variable {ω : Type} {m m' : Memory ω} {d : Datum ω} {o : ω} {path : List String}

/-- A variable is the name of at most one object. -/
def Distinct (m : Memory ω) : Prop :=
  ∀ o o', m.base o = m.base o' → (m.base o).isUnique = true → o = o'

lemma Distinct.eq_of_cell {o' : ω} {path' : List String} (hm : m.Distinct)
    (h : m.cell o' path' = m.cell o path) (hunique : (m.cell o path).base.isUnique) :
    o' = o ∧ path' = path := by
  obtain ⟨hbase, hpath⟩ := Cell.mk.inj h
  exact ⟨(hm o o' hbase.symm hunique).symm, hpath⟩

lemma Admits.exists_common {S T : SortedSet Target} (h : m.Admits (.addr (.of S)) d)
    (h' : m.Admits (.addr (.of T)) d) : ∃ x, x ∈ S ∧ x ∈ T := by
  rcases admits_targets.1 h with ⟨rfl, hS⟩ | ⟨o, path, rfl, hS⟩
  · rcases admits_targets.1 h' with ⟨-, hT⟩ | ⟨o, path, hd, -⟩
    · exact ⟨none, hS, hT⟩
    · cases hd
  · rcases admits_targets.1 h' with ⟨hd, -⟩ | ⟨o', path', hd, hT⟩
    · cases hd
    · cases hd
      exact ⟨_, hS, hT⟩

/-- What a comparison of pointers finds out is so. -/
lemma Distinct.eqTruth {a b : AddrSet} {d' : Datum ω} (hm : m.Distinct)
    (hd : m.Admits (.addr a) d) (hd' : m.Admits (.addr b) d') :
    (a.eqTruth b = .true → d = d') ∧ (a.eqTruth b = .false → d ≠ d') := by
  cases a with
  | any => exact ⟨nofun, nofun⟩
  | of S =>
    cases b with
    | any => exact ⟨nofun, nofun⟩
    | of T =>
      constructor
      · intro htruth
        obtain ⟨x, hx, rfl, rfl⟩ := same_of_eqTruth htruth
        rcases admits_targets.1 hd with ⟨rfl, hmem⟩ | ⟨o, path, rfl, hmem⟩
        all_goals
          obtain rfl := (SortedSet.mem_singleton.1 hmem).symm
          rcases admits_targets.1 hd' with ⟨rfl, hmem'⟩ | ⟨o', path', rfl, hmem'⟩
        · rfl
        · cases SortedSet.mem_singleton.1 hmem'
        · cases SortedSet.mem_singleton.1 hmem'
        · obtain ⟨rfl, rfl⟩ := hm.eq_of_cell (Option.some.inj (SortedSet.mem_singleton.1 hmem')) hx
          rfl
      · rintro htruth rfl
        obtain ⟨z, hz, hz'⟩ := hd.exists_common hd'
        exact absurd (mayAlias_self z) (by simp [not_mayAlias_of_eqTruth htruth hz hz'])

end Memory

/-! ## States -/

/-- A transition of a program that is analysed as a whole and without relations. -/
structure Env.Whole (env : Env) : Prop where
  modular : env.modular = false
  relation : env.settings.relation = .none

namespace State

open Step

variable {ω : Type} {C : Contract} {m m' : Memory ω} {env : Env} {s t : State} {v w : Value}
  {c : Cell} {d : Datum ω} {o : ω} {path : List String}

/-- A flat state of a program with one thread. -/
structure Plain (s : State) : Prop where
  single : s.multithreaded = false
  flat : s.Flat

/-- A state describes what the memory holds. -/
structure Depicts (s : State) (m : Memory ω) : Prop where
  reachable : s.reachable = true
  cells : ∀ o path d, m.content o path = some d → m.Admits (s.get (m.cell o path)) d

lemma Plain.stop (hs : s.Plain) : s.stop.Plain := ⟨hs.single, flat_stop hs.flat⟩

lemma Plain.set (hs : s.Plain) (hv : v.Scalar) (ht : s.set c v = .ok t) : t.Plain := by
  have hflat := flat_set hs.flat hv ht
  obtain ⟨cells, rfl, -⟩ := set_spec ht
  exact ⟨hs.single, hflat⟩

lemma reachable_set (h : s.set c v = .ok t) : t.reachable = s.reachable := by
  obtain ⟨cells, rfl, -⟩ := set_spec h
  rfl

lemma admits_set (h : s.set c v = .ok t) {e : Cell} (hself : e = c → m.Admits v d)
    (hother : e ≠ c → m.Admits (s.get e) d) : m.Admits (t.get e) d := by
  obtain ⟨cells, rfl, hcells⟩ := set_spec h
  rw [State.get, getD_eq]
  cases hw : cells.get? e with
  | none => exact admits_top
  | some w =>
    rcases hcells e w hw with ⟨rfl, rfl⟩ | ⟨hne, hw⟩
    · exact hself rfl
    · simpa [State.get, getD_eq, hw] using hother hne

lemma get_set (h : s.set c v = .ok t) (e : Cell) :
    e = c ∧ (t.get e = v ∨ t.get e = .top) ∨ e ≠ c ∧ t.get e = s.get e := by
  obtain ⟨b, hb, h⟩ := Fault.bind_eq_ok.1 h
  cases h
  by_cases he : e = c
  · refine .inl ⟨he, ?_⟩
    simp only [State.get, getD_eq]
    split
    · simp [get?_erase, he]
    · simp [get?_insert, he]
  · refine .inr ⟨he, ?_⟩
    simp only [State.get, getD_eq]
    split
    · simp [get?_erase, he]
    · simp [get?_insert, he]

lemma Depicts.le (h : s.Depicts m) (hs : s.Flat) (ht : t.Flat) (hle : s.le t = .ok true) :
    t.Depicts m := by
  obtain ⟨htr, hbelow⟩ := (le_iff hs ht).1 hle h.reachable
  refine ⟨htr, fun o path d hd => ?_⟩
  rw [State.get, getD_eq]
  cases hw : t.cells.get? (m.cell o path) with
  | none => exact admits_top
  | some w =>
    obtain ⟨v, hv, hvw⟩ := hbelow.cells _ w hw
    have hold := h.cells o path d hd
    rw [State.get, getD_eq, hv] at hold
    exact hold.le (hs.cells _ v hv) hvw

lemma Plain.join {r : State} (hs : s.Plain) (ht : t.Plain) (h : s.join t = .ok r) : r.Plain := by
  refine ⟨?_, (upperBound_join hs.flat ht.flat h).1⟩
  rcases merge_cases h with ⟨-, rfl⟩ | ⟨-, -, rfl⟩ | ⟨-, -, hm⟩
  · exact ht.single
  · exact hs.single
  · simp [hm.multithreaded, hs.single, ht.single]

/-! ## Cells -/

lemma ofCaller_eq_false (henv : env.Whole) (c : Cell) : ofCaller env c = false := by
  simp [ofCaller, henv.modular]

lemma tracked_of_whole (henv : env.Whole) (s : State) (name : String) :
    s.tracked env name = false := by
  simp [tracked, henv.relation]

lemma loadCell_eq (henv : env.Whole) (hs : s.Plain) (c : Cell) :
    s.loadCell env c = pure (s.get c) := by
  simp [loadCell, ofCaller_eq_false henv, hs.single]

variable {strong : Bool} {places : List Place} {I : State → Prop}

/-- A cell that is not a caller's is set, to the old value joined to the new one unless the store is
strong. -/
lemma meets_setCell (hs : s.multithreaded = false) (hcaller : ofCaller env c = false)
    (hsync : ∀ t : State, t.syncRelation env c = .ok t) :
    (s.setCell env c v strong).Meets C fun t => ∃ u,
    weaken strong v (s.get c) = .ok u ∧ s.set c u = .ok t := by
  unfold setCell
  simp only [hcaller, hs, Bool.false_eq_true, if_false, Bool.false_and, pure_bind, hsync]
  split
  all_goals
    refine meets_lift_bind fun u hu => ?_
  · exact meets_lift fun t ht => ⟨u, hu, ht⟩
  · refine meets_lift_bind fun t ht => ?_
    exact meets_pure ⟨u, hu, ht⟩

lemma set_of_refineCell (henv : env.Whole) (hs : s.Plain) (ht : s.refineCell env c v = .ok t) :
    s.set c v = .ok t := by
  unfold refineCell at ht
  simp only [ofCaller_eq_false henv, hs.single, Bool.false_eq_true, if_false, Bool.false_and,
    tracked_of_whole henv, and_false] at ht
  obtain ⟨t', ht', ht⟩ := Fault.bind_eq_ok.1 ht
  split at ht <;> cases ht <;> exact ht'

/-- A condition on a variable may refine its value, since no other object is under its name. -/
lemma Depicts.refine (hd : s.Depicts m) (hm : m.Distinct)
    (hunique : (m.cell o path).base.isUnique) (hcontent : m.content o path = some d)
    (hv : m.Admits v d) (h : s.set (m.cell o path) v = .ok t) : t.Depicts m := by
  refine ⟨(reachable_set h).trans hd.reachable, fun o' path' d' hd' => ?_⟩
  refine admits_set h (fun he => ?_) fun _ => hd.cells o' path' d' hd'
  obtain ⟨rfl, rfl⟩ := hm.eq_of_cell he hunique
  exact Option.some.inj (hcontent.symm.trans hd') ▸ hv

/-! ## Stores -/

/-- What setting a cell to a value does: the cell admits what the value does, and all cells admit
what they did, this one unless the store is strong. -/
structure Sets (m : Memory ω) (s : State) (c : Cell) (v : Value) (strong : Bool) (t : State) :
    Prop where
  reachable : t.reachable = s.reachable
  self : ∀ d, m.Admits v d → m.Admits (t.get c) d
  kept : ∀ e d, (e = c → strong = false) → m.Admits (s.get e) d → m.Admits (t.get e) d

lemma Sets.of_weaken {u : Value} (hu : weaken strong v (s.get c) = .ok u) (hset : s.set c u = .ok t)
    (hjoin : v.join (s.get c) = .ok u → ∀ d, m.Admits v d ∨ m.Admits (s.get c) d → m.Admits u d) :
    Sets m
    s c v strong t := by
  cases strong with
  | true =>
    cases hu
    refine ⟨reachable_set hset, fun d hd => ?_, fun e d he hd => ?_⟩
    · exact admits_set hset (fun _ => hd) fun hne => absurd rfl hne
    · exact admits_set hset (fun heq => by cases he heq) fun _ => hd
  | false =>
    refine ⟨reachable_set hset, fun d hd => ?_, fun e d _ hd => ?_⟩
    · exact admits_set hset (fun _ => hjoin hu d (.inl hd)) fun hne => absurd rfl hne
    · exact admits_set hset (fun heq => hjoin hu d (.inr (heq ▸ hd))) fun _ => hd

lemma foldlM_cells {f g : State → Place → Step State} (h : ∀ p ∈ places, p.isCell) (s : State) :
    places.foldlM (fun s p => if p.isCell then f s p else g s p) s = places.foldlM f s := by
  induction places generalizing s with
  | nil => rfl
  | cons p places ih =>
    obtain ⟨hp, hplaces⟩ := forall_mem_cons.1 h
    rw [foldlM_cons, foldlM_cons, if_pos hp]
    exact bind_congr fun s => ih hplaces s

lemma store_eq (env : Env) (s : State) (v : Value) (hplaces : ∀ p ∈ places, p.isCell) :
    (∃ p, places = [p] ∧ p.cell.base.isUnique ∧
    s.store env places v = s.setCell env p.cell v true) ∨
    s.store env places v = places.foldlM (fun s p => s.setCell env p.cell v false) s := by
  unfold store
  dsimp only
  rw [foldlM_cells hplaces]
  split
  next p =>
    have hinner : p.inner = false := by
      have hp := hplaces p mem_cons_self
      simp only [Place.isCell, Bool.and_eq_true, Bool.not_eq_true'] at hp
      exact hp.2
    cases hunique : p.cell.base.isUnique with
    | true =>
      refine .inl ⟨p, rfl, hunique, ?_⟩
      simp [hinner]
    | false =>
      refine .inr ?_
      simp
  next => exact .inr rfl

/-- The state after a store depicts every memory that a write of what the value admits leads to, if
the store is for the part that is written. -/
def Stores (s : State) (m : Memory ω) (v : Value) (P : ω → List String → Prop) (t : State) : Prop :=
  s.Depicts m → ∀ o path d m', P o path → m.Admits v d → m.Writes o path d m' → t.Depicts m'

lemma Depicts.written (hd : s.Depicts m) (hwrite : m.Writes o path d m')
    (hreachable : t.reachable = s.reachable) (hself : m.Admits (t.get (m.cell o path)) d)
    (hother : ∀ o' path' d', ¬ (o' = o ∧ path' = path) → m.Admits (s.get (m.cell o' path')) d' →
      m.Admits (t.get (m.cell o' path')) d') : t.Depicts m' := by
  refine ⟨hreachable.trans hd.reachable, fun o' path' d' hd' => ?_⟩
  have hcell : m'.cell o' path' = m.cell o' path' := by simp [Memory.cell, hwrite.base]
  rw [hcell]
  refine Memory.Admits.congr ?_ hwrite.base
  by_cases hsame : o' = o ∧ path' = path
  · obtain ⟨rfl, rfl⟩ := hsame
    exact Option.some.inj (hd'.symm.trans hwrite.written) ▸ hself
  · exact hother o' path' d' hsame (hd.cells o' path' d' (hwrite.other o' path' hsame ▸ hd'))

/-- A store that sets cells depicts what a write leads to, and keeps up what setting a cell does. -/
lemma depicts_store (hm : m.Distinct) (hs : I s) (hplaces : ∀ p ∈ places, p.isCell)
    (hset : ∀ p ∈ places, ∀ t strong, I t → (t.setCell env p.cell v strong).Meets C fun r => I r ∧
    Sets m t p.cell v strong r) :
    (s.store env places v).Meets C fun t => I t ∧ s.Stores m v
    (fun o path => .ofCell (m.cell o path) ∈ places) t := by
  rcases store_eq env s v hplaces with ⟨p, rfl, hunique, h⟩ | h <;> rw [h]
  · refine (hset p mem_cons_self s true hs).mono ?_
    rintro t ⟨ht, hsets⟩
    refine ⟨ht, fun hd o path d m' hplace hvd hwrite => ?_⟩
    obtain rfl := mem_singleton.1 hplace
    refine hd.written hwrite hsets.reachable (hsets.self d hvd) fun o' path' d' hother hold => ?_
    -- Another object is not under the name that was stored to.
    exact hsets.kept _ d' (fun he => absurd (hm.eq_of_cell he hunique) hother) hold
  · refine (meets_foldlM_rest (I := fun rest (t : State) => I t ∧ t.reachable = s.reachable ∧
      (∀ p ∈ places, p ∉ rest → ∀ d, m.Admits v d → m.Admits (t.get p.cell) d) ∧
      ∀ e d, m.Admits (s.get e) d → m.Admits (t.get e) d) ?_
      ⟨hs, rfl, fun p hp hrest => absurd hp hrest, fun _ _ h => h⟩).mono ?_
    · rintro p rest t hp ⟨ht, hreachable, hnew, hold⟩
      refine (hset p hp t false ht).mono ?_
      rintro r ⟨hr, hsets⟩
      refine ⟨hr, hsets.reachable.trans hreachable, fun q hq hrest d hd => ?_, fun e d hd => ?_⟩
      · by_cases hqp : q = p
        · exact hqp ▸ hsets.self d hd
        · refine hsets.kept _ d (fun _ => rfl) (hnew q hq (fun hmem => ?_) d hd)
          exact (mem_cons.1 hmem).elim hqp hrest
      · exact hsets.kept e d (fun _ => rfl) (hold e d hd)
    · rintro t ⟨ht, hreachable, hnew, hold⟩
      refine ⟨ht, fun hd o path d m' hplace hvd hwrite => ?_⟩
      exact hd.written hwrite hreachable (hnew _ hplace not_mem_nil d hvd) fun _ _ d' _ h =>
        hold _ d' h

/-- A store through a pointer to anywhere leaves cells of the shape that they had. -/
lemma meets_havocAll (hs : I s) (hsingle : ∀ t, I t → t.multithreaded = false)
    (hset : ∀ t c r, I t → t.set c (t.get c).havoc = .ok r → I r)
    (hrelation : ∀ t, I t → I { t with relation := .unconstrained env.settings.relation })
    (heffect : env.modular = true → (recordEffect env .unknown).Meets C fun _ => True) :
    (s.havocAll env).Meets C fun t => I t ∧ t.reachable = s.reachable ∧ ∀ c (d : Datum ω), m.Admits
    (s.get c).havoc d → m.Admits (t.get c) d := by
  unfold havocAll
  refine Meets.bind (meets_foldlM_rest (I := fun rest (t : State) => I t ∧ t.reachable = s.reachable ∧
    ∀ c (d : Datum ω), m.Admits (s.get c).havoc d → m.Admits (t.get c).havoc d ∧
      (c ∉ rest → m.Admits (t.get c) d)) ?_ ⟨hs, rfl, fun c d hd => ⟨hd, fun hc => ?_⟩⟩) ?_
  · rintro c rest t - ⟨ht, hreachable, hadmits⟩
    refine meets_lift fun r hr => ⟨hset t c r ht hr, (reachable_set hr).trans hreachable,
      fun e d hd => ?_⟩
    obtain ⟨hold, hdone⟩ := hadmits e d hd
    rcases get_set hr e with ⟨rfl, hget | hget⟩ | ⟨hne, hget⟩ <;> rw [hget]
    · exact ⟨(havoc_havoc _).symm ▸ hold, fun _ => hold⟩
    · exact ⟨admits_top, fun _ => admits_top⟩
    · refine ⟨hold, fun hrest => hdone fun hmem => ?_⟩
      exact (mem_cons.1 hmem).elim hne hrest
  · rw [State.get, getD_eq, get?_eq_none hc]
    exact admits_top
  · rintro t ⟨ht, hreachable, hadmits⟩
    extract_lets r finish
    have hfinish : (finish ⟨⟩).Meets C fun r => I r ∧ r.reachable = s.reachable ∧
        ∀ c (d : Datum ω), m.Admits (s.get c).havoc d → m.Admits (r.get c) d := by
      have hr : r.multithreaded = false := hsingle t ht
      simp only [finish, hr]
      exact meets_pure ⟨hrelation t ht, hreachable, fun c d hd => (hadmits c d hd).2 not_mem_nil⟩
    split
    next hmodular => exact (heffect hmodular).bind fun _ _ => hfinish
    next => exact hfinish

/-! ## Plain states -/

lemma sets_setCell (henv : env.Whole) (hs : s.Plain) (hv : v.Scalar) :
    (s.setCell env c v strong).Meets C fun t => t.Plain ∧ Sets m s c v strong t := by
  have hsync : ∀ t : State, t.syncRelation env c = .ok t := by
    intro t
    unfold syncRelation
    split
    · exact if_neg (by simp [tracked_of_whole henv])
    · rfl
  refine (meets_setCell hs.single (ofCaller_eq_false henv c) hsync).mono ?_
  rintro t ⟨u, hu, hset⟩
  have hold := hs.flat.get c
  refine ⟨hs.set ?_ hset, .of_weaken hu hset fun hjoin d => .join hv hold hjoin⟩
  cases strong with
  | true =>
    cases hu
    exact hv
  | false => exact scalar_join hv hold hu

lemma Plain.havocAll (henv : env.Whole) (hs : s.Plain) :
    (s.havocAll env).Meets C fun t => t.Plain ∧ t.reachable = s.reachable ∧
      ∀ c (d : Datum ω), m.Admits (t.get c) d := by
  refine (meets_havocAll hs (m := m) (fun t ht => ht.single) (fun t c r ht hr => ?_)
    (fun t ht => ?_) fun h => ?_).mono ?_
  · exact ht.set (scalar_havoc (ht.flat.get c)) hr
  · exact ⟨ht.single, ht.flat.cells, ht.flat.copies, ht.flat.kept, by rw [henv.relation]; rfl⟩
  · simp [henv.modular] at h
  · rintro t ⟨ht, hreachable, hall⟩
    exact ⟨ht, hreachable, fun c d => hall c d (admits_havoc (isArray_eq (hs.flat.get c)))⟩

end State
end StaticAnalysis
