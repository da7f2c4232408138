import StaticAnalysis.Proofs.Soundness.MemoryEvaluation

/-!
# Loads and stores along access paths

A designator of a known type is a variable, a field of a struct, an element of an array, or what a
pointer leads to that was read from such a designator or taken of it.  Relations are between integer
variables and have no say in where such a path leads.

So for a program with one thread the places of an access path include the part of memory that it
denotes, and a store to a field is sound, whatever relations are in use and whatever arrays are
around.
-/

namespace StaticAnalysis

open AddrSet IntVal List SortedMap Value Bool

/-! ## Values -/

def Datum.isArray {ω : Type} : Datum ω → Bool
  | .array _ => true
  | _ => false

namespace Value

variable {v w u : Value}

/-- An integer is well-formed. -/
def Proper (v : Value) : Prop := ∀ i, v = .int i → i.WellFormed

lemma proper_top : Proper .top := fun _ h => by cases h

lemma proper_bottom : Proper .bottom := fun _ h => by cases h

lemma proper_int {i : IntVal} (h : i.WellFormed) : Proper (.int i) := fun _ hi => by
  cases hi
  exact h

lemma proper_havoc (v : Value) : v.havoc.Proper := by
  intro i hi
  cases v <;> cases hi

lemma Proper.joinKinds {n : Nat} (hv : v.Proper) (hw : w.Proper) (h : joinKinds n v w = .ok u) :
    u.Proper := by
  cases joinsTo_of_joinKinds h with
  | top => exact proper_top
  | @int i j _ hk =>
    rcases join_cases (hv i rfl) (hw j rfl) hk with rfl | rfl | hk
    exacts [hv, hw, proper_int hk.wellFormed]
  | _ => exact fun _ h => by cases h

lemma Proper.join (hv : v.Proper) (hw : w.Proper) (h : v.join w = .ok u) : u.Proper := by
  rcases joinWith_cases h with ⟨-, rfl⟩ | ⟨-, -, rfl⟩ | ⟨-, -, h⟩
  exacts [hw, hv, hv.joinKinds hw h]

lemma isArray_joinKinds {n : Nat} (hv : v.isArray = false) (h : Value.joinKinds n v w = .ok u) :
    u.isArray = false := by
  cases joinsTo_of_joinKinds h with
  | array => cases hv
  | _ => rfl

lemma isArray_join (hv : v.isArray = false) (hw : w.isArray = false) (h : v.join w = .ok u) :
    u.isArray = false := by
  rcases joinWith_cases h with ⟨-, rfl⟩ | ⟨-, -, rfl⟩ | ⟨-, -, h⟩
  exacts [hw, hv, isArray_joinKinds hv h]

lemma not_void_join (hv : v.isArray = false) (hw : w.isArray → ¬ w.Void)
    (h : v.join w = .ok u) (hu : u.isArray) : ¬ u.Void := by
  rcases joinWith_cases h with ⟨-, rfl⟩ | ⟨-, -, rfl⟩ | ⟨-, -, h⟩
  · exact hw hu
  · simp [hv] at hu
  · simp [isArray_joinKinds hv h] at hu

lemma isArray_havoc (h : v.isArray = false) : v.havoc.isArray = false := by
  cases v <;> first | rfl | cases h

lemma not_void_havoc (h : v.havoc.isArray) (hv : v.isArray → ¬ v.Void) : ¬ v.havoc.Void := by
  cases v with
  | array a =>
    rintro (_ | _ | _ | hvoid)
    refine hv rfl (.array fun i hi => ?_)
    cases hvoid i ⟨hi.1, hi.2⟩
  | _ => cases h

end Value

namespace Memory

variable {ω : Type} {m : Memory ω} {v w u : Value} {d : Datum ω} {o : ω} {path : List String}

lemma Admits.isArray (h : m.Admits v d) (hd : d.isArray = false) : v.isArray = false := by
  rcases h with h | rfl | ⟨i, rfl, -⟩
  · cases h with
    | array => simp [Datum.isArray] at hd
    | _ => rfl
  · rfl
  · rfl

lemma Admits.not_void (h : m.Admits v d) (hv : v.isArray = false) : ¬ v.Void := by
  intro hvoid
  have := h.isVoid
  cases hvoid with
  | bottom => simp [Value.isVoid] at this
  | int hb => simp [Value.isVoid, hb] at this
  | addr hb => simp [Value.isVoid, hb] at this
  | array => simp [Value.isArray] at hv

lemma Admits.join_of_scalar (hv : v.Proper) (hw : w.Proper)
    (hone : v.isArray = false ∨ w.isArray = false) (h : v.join w = .ok u)
    (hd : m.Admits v d ∧ ¬ v.Void ∨ m.Admits w d ∧ ¬ w.Void) : m.Admits u d := by
  rcases joinWith_cases h with ⟨hvoid, rfl⟩ | ⟨-, hvoid, rfl⟩ | ⟨-, -, h⟩
  · exact (hd.resolve_left fun hd => hd.2 hvoid).1
  · exact (hd.resolve_right fun hd => hd.2 hvoid).1
  replace hd : m.Admits v d ∨ m.Admits w d := hd.imp And.left And.left
  have hnull : ∀ a : AddrSet, (a.join .null).mayBeNull = true := fun a =>
    mayBeNull_of_le (le_join_right a .null) mayBeNull_null
  cases joinsTo_of_joinKinds h with
  | top => exact admits_top
  | @int i j _ hk =>
    have hi := hv i rfl
    have hj := hw j rfl
    rcases hd with hd | hd
    · exact hd.int_of_contains fun n hn => contains_join_left hi hj hn hk
    · exact hd.int_of_contains fun n hn => contains_join_right hi hj hn hk
  | addr a b =>
    exact hd.elim (·.addr_le (le_join_left a b)) (·.addr_le (le_join_right a b))
  | null hi a => exact hd.elim (·.null hi (hnull a)) (·.addr_le (le_join_left a .null))
  | orNull a hi => exact hd.elim (·.addr_le (le_join_left a .null)) (·.null hi (hnull a))
  | array => simp [Value.isArray] at hone

lemma Admits.havoc (h : m.Admits v d) : m.Admits v.havoc d := by
  cases v with
  | addr => exact admits_any
  | array a =>
    rcases h with h | h | ⟨i, h, -⟩
    · cases h with
      | array hlength _ => exact .inl (.array hlength fun _ _ _ => .top)
    · cases h
    · cases h
  | _ => exact admits_top

end Memory

/-! ## States -/

namespace State

open Step

variable {ω : Type} {m m' : Memory ω} {vars : String → ω} {env : Env} {s t : State} {v w : Value}
  {c : Cell} {d : Datum ω} {o : ω} {path : List String} {places : Option (List Place)}

/-- A state of a program with one thread.  Cells of unknown callers are not listed, integers are
well-formed, and arrays have elements that are possible. -/
structure Serial (env : Env) (s : State) : Prop where
  single : s.multithreaded = false
  callers : ∀ c, ofCaller env c = true → s.get c = .top
  proper : ∀ c, (s.get c).Proper
  arrays : ∀ c, (s.get c).isArray = true → ¬ (s.get c).Void

/-- What a store of scalars leaves as it is: no cell becomes an array, and relations are kept unless
all are given up. -/
structure Follows (env : Env) (s t : State) : Prop where
  reachable : t.reachable = s.reachable
  arrays : ∀ c, (s.get c).isArray = false → (t.get c).isArray = false
  relation : t.relation = s.relation ∨ t.relation = .unconstrained env.settings.relation

lemma Follows.refl (env : Env) (s : State) : Follows env s s := ⟨rfl, fun _ h => h, .inl rfl⟩

lemma Follows.trans {u : State} (hst : Follows env s t) (htu : Follows env t u) :
    Follows env s u where
  reachable := htu.reachable.trans hst.reachable
  arrays c hc := htu.arrays c (hst.arrays c hc)
  relation := htu.relation.elim (fun h => h ▸ hst.relation) .inr

lemma Serial.not_void (hs : s.Serial env) (h : m.Admits (s.get c) d) : ¬ (s.get c).Void := by
  cases harray : (s.get c).isArray with
  | true => exact hs.arrays c harray
  | false => exact h.not_void harray

/-! ## Places -/

/-- Places are cells, and include the part of an object. -/
structure Locates (m : Memory ω) (o : ω) (path : List String) (places : Option (List Place)) :
    Prop where
  cells : Cells places
  mem : ∀ l, places = some l → .ofCell (m.cell o path) ∈ l

/-- No place is a whole local variable. -/
def Inside (places : Option (List Place)) : Prop :=
  ∀ l, places = some l → ∀ p ∈ l, p.cell.localVar? = none

lemma meets_loadCell (hs : s.Serial env) (c : Cell) :
    (s.loadCell env c).Meets .free fun v => v = s.get c := by
  unfold loadCell
  split
  next hcaller =>
    refine (meets_free _).bind fun _ _ => ?_
    exact meets_pure (hs.callers c hcaller).symm
  next =>
    simp only [hs.single, Bool.false_and, Bool.false_eq_true, if_false]
    exact meets_pure rfl

lemma admits_loadPlaces (hs : s.Serial env) (hplaces : Locates m o path places)
    (hd : m.Admits (s.get (m.cell o path)) d) (hscalar : d.isArray = false) :
    (s.loadPlaces env places).Meets .free fun v => v.Proper ∧ m.Admits v d := by
  cases places with
  | none => exact meets_pure ⟨Value.proper_top, Memory.admits_top⟩
  | some l =>
    refine (meets_foldlM_rest (I := fun rest (v : Value) => v.Proper ∧
      (.ofCell (m.cell o path) ∉ rest → m.Admits v d)) ?_ ⟨Value.proper_bottom, ?_⟩).mono ?_
    · rintro p rest v hp ⟨hv, hadmits⟩
      have hload : (s.load env p).Meets .free fun w => w = s.get p.cell := by
        have hcell := hplaces.cells l rfl p hp
        simp only [Place.isCell, and_eq_true, not_eq_true',
          Option.isNone_iff_eq_none] at hcell
        simp only [load, hcell.1, hcell.2, false_eq_true, if_false]
        exact (meets_loadCell hs p.cell).bind fun w hw => meets_pure hw
      refine hload.bind fun w hw => ?_
      subst hw
      refine meets_lift fun u hu => ⟨hv.join (hs.proper _) hu, fun hrest => ?_⟩
      -- Either the part was looked at before, or it is this place.
      by_cases hpart : .ofCell (m.cell o path) = p
      · subst hpart
        exact .join_of_scalar hv (hs.proper _) (.inr (hd.isArray hscalar)) hu
          (.inr ⟨hd, hs.not_void hd⟩)
      · have hv' := hadmits fun hmem => (mem_cons.1 hmem).elim hpart hrest
        have harray := hv'.isArray hscalar
        exact .join_of_scalar hv (hs.proper _) (.inl harray) hu (.inl ⟨hv', hv'.not_void harray⟩)
    · exact fun hrest => absurd (hplaces.mem l rfl) hrest
    · exact fun v hv => ⟨hv.1, hv.2 not_mem_nil⟩

variable {e : Expr} {lv : LValue}

lemma admits_settle {u : Value} (hlinear : (e.linear? (s.tracked env)).run = .ok none) (hv : v.Proper)
    (hd : m.Admits v d) (h : s.settle env e v = .ok u) : u.Proper ∧ m.Admits u d := by
  cases v with
  | int i =>
    obtain ⟨r, hr, h⟩ := Fault.bind_eq_ok.1 h
    have hu : u = .int r := by
      split at h
      · cases h
        rfl
      · obtain ⟨form, hform, h⟩ := Fault.bind_eq_ok.1 h
        rw [hlinear] at hform
        cases hform
        cases h
        rfl
    subst hu
    have hi := hv i rfl
    exact ⟨proper_int (tight_restrict hi hr).wellFormed,
      hd.int_of_contains fun n hn => contains_restrict hi hn hr⟩
  | _ =>
    cases h
    exact ⟨hv, hd⟩

lemma admits_read (hs : s.Serial env) (hlv : (s.resolve env lv).Meets .free (Locates m o path))
    (hlinear : ((Expr.read lv).linear? (s.tracked env)).run = .ok none)
    (hd : m.Admits (s.get (m.cell o path)) d) (hscalar : d.isArray = false) :
    (s.eval env (.read lv)).Meets .free fun v => v.Proper ∧ m.Admits v d := by
  unfold eval
  refine hlv.bind fun places hplaces => ?_
  refine (admits_loadPlaces hs hplaces hd hscalar).bind fun v hv => ?_
  exact meets_lift fun u hu => admits_settle hlinear hv.1 hv.2 hu

lemma locates_field (h : (s.resolve env lv).Meets .free (Locates m o path)) (f : String) :
    (s.resolve env (.field lv f)).Meets .free fun places => Locates m o (path ++ [f]) places ∧
    Inside
    places := by
  rw [resolve]
  refine h.bind fun places hplaces => ?_
  refine meets_pure ⟨⟨cells_map hplaces.cells fun p => Place.isCell_field, ?_⟩, ?_⟩
  · intro l hl
    obtain ⟨l', rfl, rfl⟩ := Option.map_eq_some_iff.1 hl
    exact mem_map.2 ⟨_, hplaces.mem l' rfl, rfl⟩
  · intro l hl p hp
    obtain ⟨l', rfl, rfl⟩ := Option.map_eq_some_iff.1 hl
    obtain ⟨q, hq, rfl⟩ := mem_map.1 hp
    rw [Place.field, if_pos (hplaces.cells l' rfl q hq)]
    simp [Place.ofCell, Cell.field, Cell.localVar?]

lemma locates_fields (h : (s.resolve env lv).Meets .free (Locates m o path)) (q : List String) :
    (s.resolve env (q.foldl .field lv)).Meets .free (Locates m o (path ++ q)) := by
  induction q generalizing lv path with
  | nil => simpa using h
  | cons f q ih =>
    have := ih ((locates_field h f).mono fun _ => And.left)
    rwa [append_assoc] at this

lemma locates_toAddr (h : m.Admits v (.pointer o path)) :
    Locates m o path (v.toAddr.cells?.map (·.map .ofCell)) := by
  refine ⟨cells_ofCell _, fun l hl => ?_⟩
  obtain ⟨cells, hcells, rfl⟩ := Option.map_eq_some_iff.1 hl
  exact mem_map_of_mem (h.mem_cells? hcells)

lemma pointer_cases {target : Ty} (h : env.exprType? e = some (.ptr target)) :
    (∃ lv, e = .read lv ∧ env.lvalueType? lv = some (.ptr target)) ∨ ∃ lv, e = .addrOf lv ∧
    env.lvalueType? lv = some target := by
  cases e with
  | read lv => exact .inl ⟨lv, rfl, h⟩
  | addrOf lv =>
    obtain ⟨ty, hty, hptr⟩ := Option.map_eq_some_iff.1 h
    cases hptr
    exact .inr ⟨lv, rfl, hty⟩
  | _ => cases h

lemma linear?_read {ty : Ty} (htype : env.lvalueType? lv = some ty) (hty : ty ≠ .int) (s : State) :
    ((Expr.read lv).linear? (s.tracked env)).run = .ok none := by
  cases lv with
  | var x =>
    have hvar : env.varType x = ty := Option.some.inj htype
    have htracked : s.tracked env x = false := by simp [tracked, hvar, hty]
    simp only [Expr.linear?, htracked]
    rfl
  | _ => rfl

lemma locates_resolve (hs : s.Serial env) (hd : s.Depicts m)
    (hm : m.Hosts env.graph env.function vars) (lv : LValue) {ty : Ty}
    (htype : env.lvalueType? lv = some ty) {o : ω} {path : List String}
    (hlv : lv.Denotes m vars o path) : (s.resolve env lv).Meets .free (Locates m o path) := by
  cases lv with
  | var x =>
    obtain ⟨rfl, rfl⟩ := hlv
    rw [resolve]
    refine meets_pure ⟨cells_ofCell (some [env.varCell x]), fun l hl => ?_⟩
    cases hl
    rw [hm.names x]
    exact mem_cons_self
  | field base f =>
    obtain ⟨outer, hbase, rfl⟩ := hlv
    unfold Env.lvalueType? at htype
    split at htype
    next name hname =>
      exact (locates_field (locates_resolve hs hd hm base hname hbase) f).mono fun _ => And.left
    next => cases htype
  | index base i => exact absurd hlv id
  | deref e =>
    unfold Env.lvalueType? at htype
    split at htype
    next target htarget =>
      rcases pointer_cases htarget with ⟨lv, rfl, hlvtype⟩ | ⟨lv, rfl, hlvtype⟩
      · obtain ⟨⟨o', path', hdenotes, hcontent⟩, -⟩ := hlv
        have hinner := locates_resolve hs hd hm lv hlvtype hdenotes
        rw [resolve]
        refine (admits_read hs hinner (linear?_read hlvtype (fun h => by cases h) s)
          (hd.cells _ _ _ hcontent)
          rfl).bind fun v hv => ?_
        exact meets_pure (locates_toAddr hv.2)
      · obtain ⟨o', path', hdenotes, hpointer⟩ := hlv
        cases hpointer
        have hinner := locates_resolve hs hd hm lv hlvtype hdenotes
        rw [resolve, eval]
        simp only [bind_assoc]
        refine hinner.bind fun places hplaces => ?_
        obtain ⟨a, ha⟩ : ∃ a, addressOf places = .addr a := by
          cases places with
          | none => exact ⟨.any, rfl⟩
          | some l =>
            simp only [addressOf]
            split
            exacts [⟨_, rfl⟩, ⟨_, rfl⟩]
        have hsettled : s.settle env (.addrOf lv) (.addr a) = .ok (.addr a) := rfl
        rw [pure_bind, ha, hsettled]
        refine meets_pure (locates_toAddr (ha ▸ ?_))
        refine Lists.addressOf (P := fun o' path' => o' = o ∧ path' = path) ⟨hplaces.cells, ?_⟩ hd
          ⟨rfl, rfl⟩
        rintro - _ _ ⟨rfl, rfl⟩
        exact hplaces.mem
    next => cases htype
termination_by lv

/-! ## Stores -/

lemma Serial.set (hs : s.Serial env) (hcaller : ofCaller env c → v = .top) (hv : v.Proper)
    (harray : v.isArray → ¬ v.Void) (h : s.set c v = .ok t) : t.Serial env := by
  refine ⟨?_, fun e he => ?_, fun e => ?_, fun e => ?_⟩
  · obtain ⟨cells, rfl, -⟩ := set_spec h
    exact hs.single
  · rcases get_set h e with ⟨rfl, hget | hget⟩ | ⟨-, hget⟩
    exacts [hget.trans (hcaller he), hget, hget.trans (hs.callers e he)]
  · rcases get_set h e with ⟨-, hget | hget⟩ | ⟨-, hget⟩ <;> rw [hget]
    exacts [hv, Value.proper_top, hs.proper e]
  · rcases get_set h e with ⟨-, hget | hget⟩ | ⟨-, hget⟩ <;> rw [hget]
    exacts [harray, fun h => absurd h false_ne_true, hs.arrays e]

lemma Follows.set (hv : (s.get c).isArray = false → v.isArray = false) (h : s.set c v = .ok t) :
    Follows env s t := by
  refine ⟨reachable_set h, fun e he => ?_, .inl ?_⟩
  · rcases get_set h e with ⟨rfl, hget | hget⟩ | ⟨-, hget⟩ <;> rw [hget]
    exacts [hv he, rfl, he]
  · obtain ⟨cells, rfl, -⟩ := set_spec h
    rfl

/-- A scalar is set in a cell that is no variable, unless the cell belongs to an unknown caller and
is not listed. -/
lemma Serial.setCell (hs : s.Serial env) (hc : c.localVar? = none) (hv : v.Proper)
    (hscalar : v.isArray = false) (hvoid : ¬ v.Void) {strong : Bool} :
    (s.setCell env c v strong).Meets .free fun t =>
      (t.Serial env ∧ Follows env s t) ∧ Sets m s c v strong t := by
  cases hcaller : ofCaller env c with
  | true =>
    unfold State.setCell
    rw [if_pos hcaller]
    refine (meets_free _).bind fun _ _ => meets_pure ⟨⟨hs, .refl env s⟩, rfl, fun d _ => ?_,
      fun _ _ _ h => h⟩
    rw [hs.callers c hcaller]
    exact Memory.admits_top
  | false =>
    have hsync : ∀ t : State, t.syncRelation env c = .ok t := fun t => by
      rw [syncRelation, hc]
      rfl
    refine (meets_setCell hs.single hcaller hsync).mono ?_
    rintro t ⟨u, hu, hset⟩
    have hold := hs.proper c
    have hu' : u.Proper ∧ (u.isArray = true → ¬ u.Void) ∧
        ((s.get c).isArray = false → u.isArray = false) := by
      cases strong with
      | true =>
        cases hu
        exact ⟨hv, fun h => by simp [hscalar] at h, fun _ => hscalar⟩
      | false =>
        exact ⟨hv.join hold hu, not_void_join hscalar (hs.arrays c) hu,
          fun h => isArray_join hscalar h hu⟩
    refine ⟨⟨hs.set (fun h => by simp [hcaller] at h) hu'.1 hu'.2.1 hset, .set hu'.2.2 hset⟩, ?_⟩
    refine .of_weaken hu hset fun hjoin d hd => .join_of_scalar hv hold (.inl hscalar) hjoin ?_
    exact hd.imp (⟨·, hvoid⟩) fun h => ⟨h, hs.not_void h⟩

lemma Serial.havocAll (hs : s.Serial env) :
    (s.havocAll env).Meets .free fun t => (t.Serial env ∧ Follows env s t) ∧
      t.reachable = s.reachable ∧
      ∀ c (d : Datum ω), m.Admits (s.get c).havoc d → m.Admits (t.get c) d := by
  refine meets_havocAll (I := fun t => t.Serial env ∧ Follows env s t) ⟨hs, .refl env s⟩
    (fun t ht => ht.1.single) ?_ ?_ fun _ => meets_free _
  · rintro t c r ⟨ht, hfollows⟩ hr
    refine ⟨ht.set (fun h => ?_) (proper_havoc _) (fun h => not_void_havoc h (ht.arrays c)) hr,
      hfollows.trans (.set isArray_havoc hr)⟩
    rw [ht.callers c h]
    rfl
  · rintro t ⟨ht, hfollows⟩
    exact ⟨⟨ht.single, ht.callers, ht.proper, ht.arrays⟩, hfollows.reachable, hfollows.arrays,
      .inr rfl⟩

lemma depicts_assignField (hm : m.Distinct) (hs : s.Serial env) (hd : s.Depicts m) {r : LValue} {p : ω}
    {path' : List String} {f g : String} (hlv : (s.resolve env lv).Meets .free (Locates m o path))
    (hr : (s.resolve env r).Meets .free (Locates m p path'))
    (hcontent : m.content p (path' ++ [g]) = some d) (hscalar : d.isArray = false)
    (harray : (s.get (m.cell o (path ++ [f]))).isArray = false)
      (hwrite : m.Writes o (path ++ [f]) d m') :
    (s.assignScalar env (.field lv f) (.read (.field r g))).Meets .free fun t => t.Serial env ∧
      Follows
    env s t ∧ t.Depicts m' := by
  have hsource := (locates_field hr g).mono fun _ => And.left
  unfold assignScalar
  refine (admits_read hs hsource rfl (hd.cells _ _ _ hcontent) hscalar).bind ?_
  rintro v ⟨hv, hadmits⟩
  have hvscalar := hadmits.isArray hscalar
  refine meets_lift_bind fun b hb => ?_
  have hb' : b = false := by
    cases b with
    | true => exact absurd (void_of_isBottom hb) (hadmits.not_void hvscalar)
    | false => rfl
  subst hb'
  change (s.storeLValue env (.field lv f) v).Meets .free _
  unfold storeLValue
  refine (locates_field hlv f).bind ?_
  rintro (_ | l) ⟨hplaces, hinside⟩
  · refine (hs.havocAll (m := m)).mono ?_
    rintro t ⟨⟨ht, hfollows⟩, hreachable, hshape⟩
    refine ⟨ht, hfollows, hd.written hwrite hreachable ?_ fun o' path' d' _ hold => ?_⟩
    · exact hshape _ d (Memory.admits_havoc harray)
    · exact hshape _ d' hold.havoc
  · refine (depicts_store (I := fun t => t.Serial env ∧ Follows env s t) hm ⟨hs, .refl env s⟩
      (hplaces.cells l rfl) fun p hp t strong ht => ?_).mono ?_
    · refine (ht.1.setCell (m := m) (hinside l rfl p hp) hv hvscalar
        (hadmits.not_void hvscalar)).mono ?_
      exact fun r hr => ⟨⟨hr.1.1, ht.2.trans hr.1.2⟩, hr.2⟩
    · exact fun t ht => ⟨ht.1.1, ht.1.2,
        ht.2 hd o (path ++ [f]) d m' (hplaces.mem l rfl) hadmits hwrite⟩

end State
end StaticAnalysis
