import StaticAnalysis.Proofs.Numeric.Coverage
import StaticAnalysis.Proofs.Runs.Semantics
import StaticAnalysis.Proofs.Shared.Steps

/-!
# Readings of states

A `Reading` says which states and values are considered, and what they tell of the data that an
activation sees.  Evaluation and refinement are followed here once for all readings: values go up
through expressions (`gives_eval`) and targets go down (`restricts_guard`), and no datum is lost on
the way.  What a reading owes is a fact for each function at which the walk ends, collected in
`Evaluates` and `Refines`.

An invariant of states is a reading in which nothing is ever seen (`Reading.silent`).
-/

namespace StaticAnalysis

open IntVal StaticAnalysis.Interval

/-- Expressions and conditions that have their parts among them. -/
structure Language where
  exprs : Expr → Prop
  conds : Cond → Prop
  arith : ∀ {op a b}, exprs (.arith op a b) → exprs a ∧ exprs b
  neg : ∀ {a}, exprs (.neg a) → exprs a
  truth : ∀ {c}, exprs (.truth c) → conds c
  addrOf : ∀ {lv}, exprs (.addrOf lv) → exprs (.read lv)
  field : ∀ {base f}, exprs (.read (.field base f)) → exprs (.read base)
  index : ∀ {base i}, exprs (.read (.index base i)) → exprs (.read base) ∧ exprs i
  deref : ∀ {e}, exprs (.read (.deref e)) → exprs e
  not : ∀ {c}, conds (.not c) → conds c
  and : ∀ {p q}, conds (.and p q) → conds p ∧ conds q
  or : ∀ {p q}, conds (.or p q) → conds p ∧ conds q
  cmp : ∀ {op a b}, conds (.cmp op a b) ↔ exprs a ∧ exprs b

def Language.all : Language where
  exprs _ := True
  conds _ := True
  arith _ := ⟨trivial, trivial⟩
  neg := id
  truth := id
  addrOf := id
  field := id
  index _ := ⟨trivial, trivial⟩
  deref := id
  not := id
  and _ := ⟨trivial, trivial⟩
  or _ := ⟨trivial, trivial⟩
  cmp := by simp

/-- What is considered and what it tells: whether a state describes what is seen, which data an
expression may yield and a condition may come to there, and which data a value has. -/
structure Reading (δ : Type) where
  language : Language
  states : State → Prop
  values : Value → Prop
  targets : IntVal → Prop
  describes : State → Prop
  number : Int → δ
  yields : Expr → δ → Prop
  outcome : Cond → Bool → Prop
  has : Value → δ → Prop
  arith : ∀ {op a b d}, yields (.arith op a b) d → ∃ i j n, yields a (number i) ∧
    yields b (number j) ∧ op.result? i j = some n ∧ d = number n ∧ Word.Admissible n
  neg : ∀ {a d}, yields (.neg a) d → ∃ n, yields a (number n) ∧ d = number (-n)
  truth : ∀ {c d}, yields (.truth c) d → ∃ b, outcome c b ∧ d = number (if b then 1 else 0)
  admissible : ∀ {e n}, yields e (number n) → Word.Admissible n
  always : ∀ {b}, outcome .always b → b = true
  never : ∀ {b}, outcome .never b → b = false
  not : ∀ {c b}, outcome (.not c) b → outcome c !b
  and_true : ∀ {p q}, outcome (.and p q) true → outcome p true ∧ outcome q true
  and_false : ∀ {p q}, outcome (.and p q) false → outcome p false ∨ outcome q false
  or_true : ∀ {p q}, outcome (.or p q) true → outcome p true ∨ outcome q true
  or_false : ∀ {p q}, outcome (.or p q) false → outcome p false ∧ outcome q false
  negate : ∀ {op a b}, outcome (.cmp op a b) false → outcome (.cmp op.negate a b) true
  swap : ∀ {op a b}, outcome (.cmp op a b) true → outcome (.cmp op.swap b a) true
  has_number : ∀ {i n}, has (.int i) (number n) ↔ i.contains n = true
  has_toInt : ∀ {v n}, has v (number n) → v.toInt.contains n = true
  isBottom_eq : ∀ {i d}, has (.int i) d → i.isBottom = false

namespace Reading

open Step

variable {δ : Type} {L : Reading δ} {C : Contract} {env : Env} {s t r : State} {P Q R : Prop}

/-- A reading in which nothing is seen. -/
def silent (language : Language) (states : State → Prop) (values : Value → Prop)
    (targets : IntVal → Prop) : Reading Int where
  language := language
  states := states
  values := values
  targets := targets
  describes _ := False
  number := id
  yields _ _ := False
  outcome _ _ := False
  has v n := v.toInt.contains n = true
  arith := False.elim
  neg := False.elim
  truth := False.elim
  admissible := False.elim
  always := False.elim
  never := False.elim
  not := id
  and_true := False.elim
  and_false := False.elim
  or_true := False.elim
  or_false := False.elim
  negate := id
  swap := id
  has_number := Iff.rfl
  has_toInt := id
  isBottom_eq := isBottom_of_contains

/-- A value is considered, and has what is asked for if the state describes what is seen. -/
structure Gives (L : Reading δ) (s : State) (P : δ → Prop) (v : Value) : Prop where
  mem : L.values v
  has : L.describes s → ∀ d, P d → L.has v d

/-- If a state describes what is seen, the truth of a condition admits its outcome. -/
def Judges (L : Reading δ) (s : State) (c : Cond) (t : Truth) : Prop :=
  L.describes s → ∀ b, L.outcome c b → t.Admits b

/-- A state is considered, and describes what is seen if the given state does and `P` holds. -/
structure Restricts (L : Reading δ) (s : State) (P : Prop) (r : State) : Prop where
  mem : L.states r
  describes : L.describes s → P → L.describes r

/-- An expression yields a datum of a target. -/
def Hits (L : Reading δ) (e : Expr) (target : IntVal) : Prop :=
  ∃ d, L.yields e d ∧ L.has (.int target) d

/-! ## Evaluation -/

/-- What evaluation owes to a reading.  `locates` says what is known of the places of a
designator. -/
structure Evaluates (L : Reading δ) (C : Contract) (env : Env)
    (locates : State → LValue → Option (List Place) → Prop) : Prop where
  int : ∀ {i : IntVal}, i.Tight → L.values (.int i)
  const : ∀ {s n}, L.language.exprs (.const n) → L.Gives s (L.yields (.const n)) (.ofInt n)
  null : ∀ {s}, L.language.exprs .null → L.Gives s (L.yields .null) (.addr .null)
  unknown : ∀ {s}, L.Gives s (L.yields .unknown) (.int .top)
  unsupported : ∀ {s w}, L.language.exprs (.unsupported w) →
    L.Gives s (L.yields (.unsupported w)) .top
  var : ∀ {s x}, L.language.exprs (.read (.var x)) →
    locates s (.var x) (some [.ofCell (env.varCell x)])
  field : ∀ {s base f places}, L.language.exprs (.read (.field base f)) → locates s base places →
    locates s (.field base f) (places.map (·.map (·.field f)))
  index : ∀ {s base i places v}, L.language.exprs (.read (.index base i)) → locates s base places →
    L.Gives s (L.yields i) v →
      locates s (.index base i) (places.map (·.map (·.element v.toInt.interval)))
  deref : ∀ {s e v}, L.language.exprs (.read (.deref e)) → L.Gives s (L.yields e) v →
    locates s (.deref e) (v.toAddr.cells?.map (·.map .ofCell))
  load : ∀ {s lv places}, L.states s → L.language.exprs (.read lv) → locates s lv places →
    (s.loadPlaces env places).Meets C (L.Gives s (L.yields (.read lv)))
  addrOf : ∀ {s lv places}, L.language.exprs (.addrOf lv) → locates s lv places →
    L.Gives s (L.yields (.addrOf lv)) (State.addressOf places)
  arithmetic : ∀ {s op a b x y u}, L.Gives s (L.yields a) x → L.Gives s (L.yields b) y →
    State.arithmetic op x y = .ok u → L.Gives s (L.yields (.arith op a b)) u
  settle : ∀ {s e P v u}, L.states s → L.Gives s P v → s.settle env e v = .ok u → L.Gives s P u
  compare : ∀ {s op a b x y t u}, L.states s → L.Gives s (L.yields a) x → L.Gives s (L.yields b) y →
    State.compareTruth op x y = .ok t → s.relationTruth env op a b t = .ok u →
    L.Judges s (.cmp op a b) u

section Evaluation

variable {c p q : Cond} {u v : Truth}

lemma Judges.not (h : L.Judges s c u) : L.Judges s (.not c) u.not :=
  fun hd b hb => by simpa using Truth.admits_not (h hd (!b) (L.not hb))

lemma Judges.and (hp : L.Judges s p u) (hq : L.Judges s q v) : L.Judges s (.and p q) (u.and v) := by
  rintro hd (_ | _) hb
  · rcases L.and_false hb with hb | hb
    · exact Truth.admits_and_left (hp hd _ hb) v
    · exact Truth.admits_and_right (hq hd _ hb) u
  · exact Truth.admits_and (hp hd _ (L.and_true hb).1) (hq hd _ (L.and_true hb).2)

lemma Judges.or (hp : L.Judges s p u) (hq : L.Judges s q v) : L.Judges s (.or p q) (u.or v) := by
  -- The dual of a conjunction, as the connective itself is.
  rintro hd (_ | _) hb
  · obtain ⟨hbp, hbq⟩ := L.or_false hb
    exact Truth.admits_not (Truth.admits_and (Truth.admits_not (hp hd _ hbp))
      (Truth.admits_not (hq hd _ hbq)))
  · rcases L.or_true hb with hb | hb
    · exact Truth.admits_not (Truth.admits_and_left (Truth.admits_not (hp hd _ hb)) _)
    · exact Truth.admits_not (Truth.admits_and_right (Truth.admits_not (hq hd _ hb)) _)

variable {locates : State → LValue → Option (List Place) → Prop}
variable (h : L.Evaluates C env locates)
include h

mutual

lemma gives_eval (hs : L.states s) (e : Expr) (he : L.language.exprs e) :
    (s.eval env e).Meets C (L.Gives s (L.yields e)) := by
  unfold State.eval
  extract_lets settled
  have hsettled : ∀ v, L.Gives s (L.yields e) v → (settled v).Meets C (L.Gives s (L.yields e)) :=
    fun v hv => meets_lift fun u hu => h.settle hs hv hu
  clear_value settled
  cases e with
  | const n => exact hsettled _ (h.const he)
  | null => exact hsettled _ (h.null he)
  | unknown => exact hsettled _ h.unknown
  | unsupported what => exact hsettled _ (h.unsupported he)
  | read lv =>
    refine (locates_resolve hs lv he).bind fun places hplaces => ?_
    exact (h.load hs he hplaces).bind hsettled
  | addrOf lv =>
    refine (locates_resolve hs lv (L.language.addrOf he)).bind fun places hplaces => ?_
    exact hsettled _ (h.addrOf he hplaces)
  | arith op a b =>
    obtain ⟨ha, hb⟩ := L.language.arith he
    refine (gives_eval hs a ha).bind fun x hx => (gives_eval hs b hb).bind fun y hy => ?_
    exact meets_lift_bind fun u hu => hsettled u (h.arithmetic hx hy hu)
  | neg a =>
    refine (gives_eval hs a (L.language.neg he)).bind fun x hx => meets_lift_bind fun i hi => ?_
    refine hsettled (.int i) ⟨h.int (tight_neg hi), fun hd d hneg => ?_⟩
    obtain ⟨n, hn, rfl⟩ := L.neg hneg
    exact L.has_number.2 (contains_neg (L.has_toInt (hx.has hd _ hn)) (L.admissible hn).2 hi)
  | truth c =>
    refine (judges_evalCond hs c (L.language.truth he)).bind fun t ht => ?_
    refine hsettled (.int _) ⟨h.int (tight_ofTruth t), fun hd d htruth => ?_⟩
    obtain ⟨b, hb, rfl⟩ := L.truth htruth
    exact L.has_number.2 (contains_ofTruth (ht hd b hb))

lemma locates_resolve (hs : L.states s) (lv : LValue) (hlv : L.language.exprs (.read lv)) :
    (s.resolve env lv).Meets C (locates s lv) := by
  unfold State.resolve
  cases lv with
  | var x => exact meets_pure (h.var hlv)
  | field base f =>
    exact (locates_resolve hs base (L.language.field hlv)).map fun _ hplaces => h.field hlv hplaces
  | index base i =>
    obtain ⟨hbase, hi⟩ := L.language.index hlv
    refine (gives_eval hs i hi).bind fun v hv => ?_
    exact (locates_resolve hs base hbase).map fun _ hplaces => h.index hlv hplaces hv
  | deref e => exact (gives_eval hs e (L.language.deref hlv)).map fun _ hv => h.deref hlv hv

lemma judges_evalCond (hs : L.states s) (c : Cond) (hc : L.language.conds c) :
    (s.evalCond env c).Meets C (L.Judges s c) := by
  unfold State.evalCond
  cases c with
  | always => exact meets_pure fun _ b hb => L.always hb ▸ .inr rfl
  | never => exact meets_pure fun _ b hb => L.never hb ▸ .inr rfl
  | not c => exact (judges_evalCond hs c (L.language.not hc)).map fun _ ht => ht.not
  | and p q =>
    obtain ⟨hp, hq⟩ := L.language.and hc
    refine (judges_evalCond hs p hp).bind fun t ht => ?_
    exact (judges_evalCond hs q hq).map fun u hu => ht.and hu
  | or p q =>
    obtain ⟨hp, hq⟩ := L.language.or hc
    refine (judges_evalCond hs p hp).bind fun t ht => ?_
    exact (judges_evalCond hs q hq).map fun u hu => ht.or hu
  | cmp op a b =>
    obtain ⟨ha, hb⟩ := L.language.cmp.1 hc
    have hleft := gives_eval hs a ha
    have hright := gives_eval hs b hb
    dsimp -zeta only
    extract_lets compared
    have hcompared : ∀ x y, L.Gives s (L.yields a) x → L.Gives s (L.yields b) y →
        (compared (x, y)).Meets C (L.Judges s (.cmp op a b)) := fun x y hx hy =>
      meets_lift_bind fun t ht => meets_lift fun u hu => h.compare hs hx hy ht hu
    clear_value compared
    split
    all_goals
      first
        | exact hleft.bind fun x hx => hright.bind fun y hy => hcompared x y hx hy
        | exact hright.bind fun y hy => hleft.bind fun x hx => hcompared x y hx hy

end

end Evaluation

/-! ## Refinement -/

/-- What refinement owes to a reading. -/
structure Refines (L : Reading δ) (C : Contract) (env : Env) : Prop where
  eval : ∀ {s}, L.states s → ∀ e, L.language.exprs e →
    (s.eval env e).Meets C (L.Gives s (L.yields e))
  evalCond : ∀ {s}, L.states s → ∀ c, L.language.conds c → (s.evalCond env c).Meets C (L.Judges s c)
  stop : ∀ {s}, L.states s → L.states s.stop
  join : ∀ {s t r : State}, L.states s → L.states t → s.join t = .ok r →
    L.states r ∧ (L.describes s ∨ L.describes t → L.describes r)
  isBottom : ∀ {s}, L.states s → L.describes s → s.isBottom = false
  tight : ∀ {i : IntVal}, i.Tight → L.targets i
  dividends : ∀ {i r : IntVal} {n m : Int}, L.targets i → i.isBottom = false →
    i.constant? = some n → State.dividends n m = .ok r → L.targets r
  comparison : ∀ {op x y r}, L.values x → L.values y →
    State.comparisonTargets op x.toInt y.toInt = .ok r → L.targets r.1 ∧ L.targets r.2
  hits : ∀ {s op a b x y r}, L.Gives s (L.yields a) x → L.Gives s (L.yields b) y →
    State.comparisonTargets op x.toInt y.toInt = .ok r → L.describes s →
      L.outcome (.cmp op a b) true → L.Hits a r.1 ∧ L.Hits b r.2
  lvalue : ∀ {s lv i}, L.states s → L.language.exprs (.read lv) → L.targets i →
    (s.refineLValue env lv (.int i)).Meets C (L.Restricts s (L.Hits (.read lv) i))
  addrs : ∀ {s op a b x y}, L.states s → L.language.exprs a → L.language.exprs b →
    L.Gives s (L.yields a) x → L.Gives s (L.yields b) y → (x.isAddr || y.isAddr) = true →
      (s.refineAddrs env op a b x.toAddr y.toAddr).Meets C
        (L.Restricts s (L.outcome (.cmp op a b) true))
  relation : ∀ {s op a b r}, L.states s → s.guardRelation env op a b = .ok r →
    L.Restricts s (L.outcome (.cmp op a b) true) r

section Restricts

lemma Restricts.refl (hs : L.states s) : L.Restricts s P s := ⟨hs, fun hd _ => hd⟩

lemma Restricts.imp (h : L.Restricts s P r) (hRP : L.describes s → R → P) : L.Restricts s R r :=
  ⟨h.mem, fun hd hR => h.describes hd (hRP hd hR)⟩

lemma Restricts.seq (h : L.Restricts s P r) (h' : L.Restricts r Q t)
    (hR : L.describes s → R → P ∧ Q) : L.Restricts s R t :=
  ⟨h'.mem, fun hd hr => h'.describes (h.describes hd (hR hd hr).1) (hR hd hr).2⟩

lemma Refines.stops (h : L.Refines C env) (hs : L.states s) (hP : L.describes s → ¬ P) :
    L.Restricts s P s.stop :=
  ⟨h.stop hs, fun hd hp => absurd hp (hP hd)⟩

lemma Refines.joins (h : L.Refines C env) (hr : L.Restricts s P r) (ht : L.Restricts s Q t)
    {u : State} (hu : r.join t = .ok u) : L.Restricts s (P ∨ Q) u := by
  obtain ⟨hmem, hdescribes⟩ := h.join hr.mem ht.mem hu
  exact ⟨hmem, fun hd hPQ => hdescribes (hPQ.imp (hr.describes hd) (ht.describes hd))⟩

end Restricts

lemma contains_dividends {x d : Int} {r : IntVal} (hd : d ≠ 0) (hfits : Word.fits (x.tmod d))
    (h : State.dividends (x.tmod d) d = .ok r) : r.contains x := by
  refine contains_reduced ?_ ?_ (Congruence.contains_remPreimage hd) h
  · split_ifs
    exacts [proper_atLeast hfits, proper_atMost hfits, proper_top]
  · rcases le_total 0 x with hx | hx
    · have := tmod_nonneg_le (n := d) hx
      split_ifs
      · exact contains_atLeast.2 this.2
      · omega
      · exact contains_top
    · have := tmod_nonpos_le (n := d) hx
      split_ifs
      · omega
      · exact contains_atMost.2 this.2
      · exact contains_top

/-! ### What an outcome says of the operands -/

section Operands

variable {a b : Expr} {c : Cond} {x y : Value} {target i j : IntVal} {k : Int}

lemma Hits.add (h : L.Hits (.arith .add a b) target) (hd : L.describes s)
    (hx : L.Gives s (L.yields a) x) (hy : L.Gives s (L.yields b) y)
    (hi : target.sub y.toInt = .ok i) (hj : target.sub x.toInt = .ok j) : L.Hits a i ∧
      L.Hits b j := by
  obtain ⟨_, hadd, hin⟩ := h
  obtain ⟨k, l, n, hk, hl, hkl, rfl, -⟩ := L.arith hadd
  cases hkl
  rw [L.has_number] at hin
  have hki := contains_sub hin (L.has_toInt (hy.has hd _ hl)) (L.admissible hl).2
    (by simpa using (L.admissible hk).1) hi
  have hlj := contains_sub hin (L.has_toInt (hx.has hd _ hk)) (L.admissible hk).2
    (by simpa using (L.admissible hl).1) hj
  exact ⟨⟨_, hk, L.has_number.2 (by simpa using hki)⟩, ⟨_, hl, L.has_number.2 (by simpa using hlj)⟩⟩

lemma Hits.sub (h : L.Hits (.arith .sub a b) target) (hd : L.describes s)
    (hx : L.Gives s (L.yields a) x) (hy : L.Gives s (L.yields b) y)
    (hi : target.add y.toInt = .ok i) (hj : x.toInt.sub target = .ok j) : L.Hits a i ∧
      L.Hits b j := by
  obtain ⟨_, hsub, hin⟩ := h
  obtain ⟨k, l, n, hk, hl, hkl, rfl, hfits⟩ := L.arith hsub
  cases hkl
  rw [L.has_number] at hin
  have hki := contains_add hin (L.has_toInt (hy.has hd _ hl))
    (by simpa using (L.admissible hk).1) hi
  have hlj := contains_sub (L.has_toInt (hx.has hd _ hk)) hin hfits.2
    (by simpa using (L.admissible hl).1) hj
  exact ⟨⟨_, hk, L.has_number.2 (by simpa using hki)⟩, ⟨_, hl, L.has_number.2 (by simpa using hlj)⟩⟩

lemma Hits.mul_left (h : L.Hits (.arith .mul a b) target) (hk : k ≠ 0)
    (hb : ∀ n, L.yields b (L.number n) → n = k) :
    L.Hits a (.ofInterval (target.interval.mulPreimage k)) := by
  obtain ⟨_, hmul, hin⟩ := h
  obtain ⟨l, n, _, hl, hn, hln, rfl, -⟩ := L.arith hmul
  cases hln
  cases hb n hn
  refine ⟨_, hl, L.has_number.2 (contains_ofInterval.2 ?_)⟩
  exact contains_mulPreimage hk (IntVal.contains_iff.1 (L.has_number.1 hin)).1 (L.admissible hl).1

lemma Hits.mul_right (h : L.Hits (.arith .mul a b) target) (hk : k ≠ 0)
    (ha : ∀ n, L.yields a (L.number n) → n = k) :
    L.Hits b (.ofInterval (target.interval.mulPreimage k)) := by
  obtain ⟨_, hmul, hin⟩ := h
  obtain ⟨n, l, _, hn, hl, hln, rfl, -⟩ := L.arith hmul
  cases hln
  cases ha n hn
  rw [L.has_number, Int.mul_comm] at hin
  refine ⟨_, hl, L.has_number.2 (contains_ofInterval.2 ?_)⟩
  exact contains_mulPreimage hk (IntVal.contains_iff.1 hin).1 (L.admissible hl).1

lemma Hits.div (h : L.Hits (.arith .div a b) target) (hk : k ≠ 0)
    (hb : ∀ n, L.yields b (L.number n) → n = k) :
    L.Hits a (.ofInterval (target.interval.divPreimage k)) := by
  obtain ⟨_, hdiv, hin⟩ := h
  obtain ⟨l, n, _, hl, hn, hln, rfl, hfits⟩ := L.arith hdiv
  cases hb n hn
  simp only [ArithOp.result?, Option.ite_none_left_eq_some, Option.some.injEq] at hln
  obtain ⟨-, rfl⟩ := hln
  refine ⟨_, hl, L.has_number.2 (contains_ofInterval.2 ?_)⟩
  exact contains_divPreimage hk (IntVal.contains_iff.1 (L.has_number.1 hin)).1
    (L.admissible hl).1 (L.admissible hn).2 hfits.2

lemma Hits.mod {r : Int} (h : L.Hits (.arith .mod a b) target)
    (hb : ∀ n, L.yields b (L.number n) → n = k) (hr : target.constant? = some r) :
    ∃ n, L.yields a (L.number n) ∧ n.tmod k = r ∧ Word.fits r := by
  obtain ⟨_, hmod, hin⟩ := h
  obtain ⟨l, n, _, hl, hn, hln, rfl, hfits⟩ := L.arith hmod
  cases hb n hn
  simp only [ArithOp.result?, Option.ite_none_left_eq_some, Option.some.injEq] at hln
  obtain ⟨-, rfl⟩ := hln
  cases eq_of_constant? hr (L.has_number.1 hin)
  exact ⟨l, hl, rfl, hfits.1⟩

lemma Hits.neg (h : L.Hits (.neg a) target) (hi : target.neg = .ok i) : L.Hits a i := by
  obtain ⟨_, hneg, hin⟩ := h
  obtain ⟨n, hn, rfl⟩ := L.neg hneg
  have hni := contains_neg (L.has_number.1 hin) (by simpa using (L.admissible hn).1) hi
  exact ⟨_, hn, L.has_number.2 (by simpa using hni)⟩

lemma Hits.truth_false (h : L.Hits (.truth c) target) (ht : target.constant? = some 0) :
    L.outcome c false := by
  obtain ⟨_, htruth, hin⟩ := h
  obtain ⟨b, hb, rfl⟩ := L.truth htruth
  have := eq_of_constant? ht (L.has_number.1 hin)
  cases b with
  | true => simp at this
  | false => exact hb

lemma Hits.truth_true (h : L.Hits (.truth c) target) (ht : target.interval.contains 0 = false) :
    L.outcome c true := by
  obtain ⟨_, htruth, hin⟩ := h
  obtain ⟨b, hb, rfl⟩ := L.truth htruth
  cases b with
  | true => exact hb
  | false =>
    have hzero : target.interval.contains 0 = true := (IntVal.contains_iff.1 (L.has_number.1 hin)).1
    simp [hzero] at ht

end Operands

lemma constant_of_nonzeroConstant (h : L.Refines C env) (hs : L.states s) {e : Expr}
    (he : L.language.exprs e) :
    (s.nonzeroConstant env e).Meets C fun o => ∀ c, o = some c → c ≠ 0 ∧
      (L.describes s → ∀ n, L.yields e (L.number n) → n = c) := by
  refine (h.eval hs e he).map fun v hv c hc => ?_
  obtain ⟨hc, hne⟩ := Option.filter_eq_some_iff.1 hc
  refine ⟨by simpa using hne, fun hd n hn => ?_⟩
  exact eq_of_constant? hc (L.has_toInt (hv.has hd _ hn))

/-! ### Conditions and expressions -/

mutual

lemma restricts_guard (h : L.Refines C env) (holds : Bool) (c : Cond) (hc : L.language.conds c)
    {s : State} (hs : L.states s) :
    (State.guard env holds c s).Meets C (L.Restricts s (L.outcome c holds)) := by
  unfold State.guard
  split
  · exact meets_pure (.refl hs)
  cases c with
  | always =>
    refine meets_pure ?_
    cases holds with
    | true => exact .refl hs
    | false => exact h.stops hs fun _ hb => absurd (L.always hb) Bool.false_ne_true
  | never =>
    refine meets_pure ?_
    cases holds with
    | true => exact h.stops hs fun _ hb => absurd (L.never hb).symm Bool.false_ne_true
    | false => exact .refl hs
  | not c =>
    exact (restricts_guard h (!holds) c (L.language.not hc) hs).mono fun r hr =>
      hr.imp fun _ hb => L.not hb
  | and p q =>
    obtain ⟨hp, hq⟩ := L.language.and hc
    cases holds with
    | true =>
      refine (restricts_guard h true p hp hs).bind fun r hr => ?_
      exact (restricts_guard h true q hq hr.mem).mono fun t ht => hr.seq ht fun _ hb =>
        L.and_true hb
    | false =>
      refine (restricts_guard h false p hp hs).bind fun r hr => ?_
      refine (restricts_guard h false q hq hs).bind fun t ht => ?_
      exact meets_lift fun u hu => (h.joins hr ht hu).imp fun _ hb => L.and_false hb
  | or p q =>
    obtain ⟨hp, hq⟩ := L.language.or hc
    cases holds with
    | true =>
      refine (restricts_guard h true p hp hs).bind fun r hr => ?_
      refine (restricts_guard h true q hq hs).bind fun t ht => ?_
      exact meets_lift fun u hu => (h.joins hr ht hu).imp fun _ hb => L.or_true hb
    | false =>
      refine (restricts_guard h false p hp hs).bind fun r hr => ?_
      exact (restricts_guard h false q hq hr.mem).mono fun t ht => hr.seq ht fun _ hb =>
        L.or_false hb
  | cmp op a b =>
    obtain ⟨ha, hb⟩ := L.language.cmp.1 hc
    dsimp -zeta only
    extract_lets op' related
    have houtcome : L.outcome (.cmp op a b) holds → L.outcome (.cmp op' a b) true := by
      intro hP
      cases holds with
      | true => exact hP
      | false => exact L.negate hP
    have hrelated : ∀ r, L.Restricts s (L.outcome (.cmp op a b) holds) r →
        (related r).Meets C (L.Restricts s (L.outcome (.cmp op a b) holds)) := fun r hr =>
      meets_lift fun t ht => hr.seq (h.relation hr.mem ht) fun _ hP => ⟨hP, houtcome hP⟩
    refine (h.evalCond hs (.cmp op' a b) (L.language.cmp.2 ⟨ha, hb⟩)).bind fun t ht => ?_
    split
    next hfalse =>
      refine meets_pure (h.stops hs fun hd hP => ?_)
      rcases ht hd true (houtcome hP) with h | h <;> simp [h, Truth.ofBool] at hfalse
    have hleft := h.eval hs a ha
    have hright := h.eval hs b hb
    clear_value op' related
    split
    case h_3 =>
      refine hleft.bind fun x hx => hright.bind fun y hy => ?_
      split
      next haddr =>
        refine (h.addrs hs ha hb hx hy haddr).bind fun r hr => hrelated r (hr.imp ?_)
        exact fun _ hP => houtcome hP
      refine meets_lift_bind fun targets htargets => ?_
      have hmem := h.comparison hx.mem hy.mem htargets
      refine (restricts_refine h a ha hmem.1 hs).bind fun r hr => ?_
      refine (restricts_refine h b hb hmem.2 hr.mem).bind fun t ht => hrelated t ?_
      exact hr.seq ht fun hd hP => h.hits hx hy htargets hd (houtcome hP)
    -- `>` and `>=` are taken from right to left.
    all_goals
      refine hright.bind fun y hy => hleft.bind fun x hx => ?_
      split
      · exact hrelated s (.refl hs)
      refine meets_lift_bind fun targets htargets => ?_
      have hmem := h.comparison hy.mem hx.mem htargets
      refine (restricts_refine h b hb hmem.1 hs).bind fun r hr => ?_
      refine (restricts_refine h a ha hmem.2 hr.mem).bind fun t ht => hrelated t ?_
      exact hr.seq ht fun hd hP => h.hits hy hx htargets hd (L.swap (houtcome hP))

lemma restricts_refine (h : L.Refines C env) (e : Expr) (he : L.language.exprs e)
    {target : IntVal} (htarget : L.targets target) {s : State} (hs : L.states s) :
    (State.refine env e target s).Meets C (L.Restricts s (L.Hits e target)) := by
  unfold State.refine
  split
  · exact meets_pure (.refl hs)
  split
  next hbottom =>
    refine meets_pure (h.stops hs ?_)
    rintro - ⟨d, -, hd⟩
    simp [L.isBottom_eq hd] at hbottom
  rename_i hbottom
  cases e with
  | read lv => exact h.lvalue hs he htarget
  | arith op a b =>
    obtain ⟨ha, hb⟩ := L.language.arith he
    have hleft := h.eval hs a ha
    have hright := h.eval hs b hb
    have hconstant := constant_of_nonzeroConstant h hs hb
    cases op with
    | add =>
      refine hleft.bind fun x hx => hright.bind fun y hy => meets_lift_bind fun i hi => ?_
      refine (restricts_refine h a ha (h.tight (tight_sub hi)) hs).bind fun r hr => ?_
      refine meets_lift_bind fun j hj => ?_
      refine (restricts_refine h b hb (h.tight (tight_sub hj)) hr.mem).mono fun t ht => ?_
      exact hr.seq ht fun hd hP => hP.add hd hx hy hi hj
    | sub =>
      refine hleft.bind fun x hx => hright.bind fun y hy => meets_lift_bind fun i hi => ?_
      refine (restricts_refine h a ha (h.tight (tight_add hi)) hs).bind fun r hr => ?_
      refine meets_lift_bind fun j hj => ?_
      refine (restricts_refine h b hb (h.tight (tight_sub hj)) hr.mem).mono fun t ht => ?_
      exact hr.seq ht fun hd hP => hP.sub hd hx hy hi hj
    | mul =>
      have htight := fun c =>
        h.tight (tight_ofInterval (proper_mulPreimage target.interval c))
      refine hconstant.bind fun o ho => ?_
      split
      next c =>
        obtain ⟨hc0, hc⟩ := ho c rfl
        refine (restricts_refine h a ha (htight c) hs).mono fun r hr => ?_
        exact hr.imp fun hd hP => hP.mul_left hc0 (hc hd)
      refine (constant_of_nonzeroConstant h hs ha).bind fun o ho => ?_
      split
      next c =>
        obtain ⟨hc0, hc⟩ := ho c rfl
        refine (restricts_refine h b hb (htight c) hs).mono fun r hr => ?_
        exact hr.imp fun hd hP => hP.mul_right hc0 (hc hd)
      · exact meets_pure (.refl hs)
    | div =>
      refine hconstant.bind fun o ho => ?_
      split
      next c =>
        obtain ⟨hc0, hc⟩ := ho c rfl
        have htight := tight_ofInterval (proper_divPreimage target.interval c)
        refine (restricts_refine h a ha (h.tight htight) hs).mono fun r hr => ?_
        exact hr.imp fun hd hP => hP.div hc0 (hc hd)
      · exact meets_pure (.refl hs)
    | mod =>
      refine hconstant.bind fun o ho => ?_
      split
      next c r hr =>
        obtain ⟨hc0, hc⟩ := ho c rfl
        split
        next hle =>
          refine meets_pure (h.stops hs fun hd hP => ?_)
          obtain ⟨k, -, rfl, -⟩ := hP.mod (hc hd) hr
          rw [Int.natAbs_tmod] at hle
          exact absurd (Nat.mod_lt k.natAbs (Int.natAbs_pos.2 hc0)) (by omega)
        refine meets_lift_bind fun i hi => ?_
        have hdividends := h.dividends htarget (by simpa using hbottom) hr hi
        refine (restricts_refine h a ha hdividends hs).mono fun t ht => ht.imp fun hd hP => ?_
        obtain ⟨k, hk, rfl, hfits⟩ := hP.mod (hc hd) hr
        exact ⟨_, hk, L.has_number.2 (contains_dividends hc0 hfits hi)⟩
      next => exact meets_pure (.refl hs)
  | neg a =>
    refine meets_lift_bind fun i hi => ?_
    refine (restricts_refine h a (L.language.neg he) (h.tight (tight_neg hi)) hs).mono ?_
    exact fun r hr => hr.imp fun _ hP => hP.neg hi
  | truth c =>
    have hc := L.language.truth he
    dsimp only
    split
    next hzero =>
      refine (restricts_guard h false c hc hs).mono fun r hr => ?_
      exact hr.imp fun _ hP => hP.truth_false hzero
    split
    next hzero =>
      refine (restricts_guard h true c hc hs).mono fun r hr => ?_
      exact hr.imp fun _ hP => hP.truth_true (by simpa using hzero)
    · exact meets_pure (.refl hs)
  | _ => exact meets_pure (.refl hs)

end

/-- A check that decides a condition decides it for all that the state describes. -/
lemma judges_check (h : L.Refines C env) (hs : L.states s) {c : Cond} (hc : L.language.conds c) :
    (s.check env c).Meets C (L.Judges s c) := by
  -- A state that is left without runs describes nothing, so the outcome it stands for does not occur.
  have hexcluded : ∀ holds r, L.Restricts s (L.outcome c holds) r → r.isBottom = true →
      L.describes s → ∀ b, L.outcome c b → b = !holds := by
    intro holds r hr hbottom hd b hb
    rw [Bool.eq_not]
    rintro rfl
    simp [h.isBottom hr.mem (hr.describes hd hb)] at hbottom
  refine (h.evalCond hs c hc).bind fun t ht => ?_
  split
  next =>
    refine (restricts_guard h false c hc hs).bind fun r hr => ?_
    split
    next hbottom => exact meets_pure fun hd b hb => hexcluded false r hr hbottom hd b hb ▸ .inr rfl
    refine (restricts_guard h true c hc hs).bind fun r hr => ?_
    split
    next hbottom => exact meets_pure fun hd b hb => hexcluded true r hr hbottom hd b hb ▸ .inr rfl
    · exact meets_pure fun _ b _ => Truth.admits_unknown b
  next => exact meets_pure ht

end Reading
end StaticAnalysis
