import StaticAnalysis.Analyzer
import StaticAnalysis.Proofs.Numeric.CongruenceLaws
import StaticAnalysis.Proofs.Relation.Chains
import StaticAnalysis.Proofs.Soundness.IntegerRefinement
import StaticAnalysis.Proofs.Transfer.UniqueCells

/-!
# Disabled integer domains

What a function computes is confined to its domains: an expression, a parameter and a refined cell
get a constant or a value whose disabled components are unbounded.  Narrowing keeps that, and so
does merging unless it merges two different constants, since a merge computes both components.
-/

namespace StaticAnalysis

open StaticAnalysis.Bound Fault StaticAnalysis.Interval Step IntVal

variable {d : DomainSet} {a b r : IntVal} {i : Interval} {g : Congruence} {n : Int}

namespace IntVal

/-- Nothing of a disabled domain shows: there is no value at all or just one, or the component of
each disabled domain is unbounded. -/
def Confined (d : DomainSet) (a : IntVal) : Prop :=
  a = bottom ∨ (∃ n, a = constant n) ∨
    (d.interval = false → a.interval = .top) ∧ (d.congruence = false → a.congruence = .top)

lemma confined_constant (n : Int) : (constant n).Confined d := .inr (.inl ⟨n, rfl⟩)

lemma confined_reduced (hi : d.interval = false → i = .top) (hg : d.congruence = false → g = .top)
    (h : reduced i g = .ok r) : r.Confined d := by
  unfold reduced at h
  split at h
  · cases h
    exact .inl rfl
  cases g with
  | bottom =>
    cases h
    exact .inl rfl
  | residue c k =>
    by_cases hk₀ : k = 0
    · simp only [hk₀, if_true] at h
      cases h
      split
      exacts [confined_constant c, .inl rfl]
    simp only [hk₀, if_false] at h
    by_cases hk₁ : 1 < k
    · simp only [hk₁, if_true] at h
      obtain ⟨low, hlow, h⟩ := bind_eq_ok.1 h
      obtain ⟨high, hhigh, h⟩ := bind_eq_ok.1 h
      split_ifs at h
      · cases h
        exact .inl rfl
      · split at h <;> cases h
        · exact confined_constant _
        · refine .inr (.inr ⟨fun hd => ?_, hg⟩)
          cases hi hd
          cases hlow
          cases hhigh
          rfl
    · simp only [hk₁, if_false] at h
      split at h <;> cases h
      exacts [confined_constant _, .inr (.inr ⟨hi, hg⟩)]

lemma confined_restrict (h : a.restrict d = .ok r) : r.Confined d := by
  rcases restrict_cases h with ⟨-, rfl⟩ | ⟨-, n, -, rfl⟩ | ⟨-, h⟩
  · exact .inl rfl
  · exact confined_constant n
  · exact confined_reduced (fun hd => by simp [hd]) (fun hd => by simp [hd]) h

end IntVal

lemma Interval.join_top (i : Interval) : i.join .top = .top := by
  simp [join, top, negInf_le, le_posInf]

lemma Interval.top_join (i : Interval) : Interval.top.join i = .top := by
  simp [join, top, negInf_le, le_posInf]

lemma Congruence.join_top (g : Congruence) : g.join .top = .top := by
  cases g with
  | bottom => rfl
  | residue c k => simp [join, top, gcd, ofResidue]

namespace IntVal

/-- Components that are merged show nothing of a disabled domain, unless both values are
constants. -/
lemma Confined.merge (ha : a.Confined d) (hb : b.Confined d) (hab : a.isBottom = false)
    (hbb : b.isBottom = false) : (∃ m n, a = constant m ∧ b = constant n) ∨
    (d.interval = false → a.interval = .top ∨ b.interval = .top) ∧
      (d.congruence = false → a.congruence = .top ∨ b.congruence = .top) := by
  rcases ha with rfl | ⟨m, rfl⟩ | ha
  · cases hab
  · rcases hb with rfl | ⟨n, rfl⟩ | hb
    · cases hbb
    · exact .inl ⟨m, n, rfl, rfl⟩
    · exact .inr ⟨fun hd => .inr (hb.1 hd), fun hd => .inr (hb.2 hd)⟩
  · exact .inr ⟨fun hd => .inl (ha.1 hd), fun hd => .inl (ha.2 hd)⟩

lemma join_constant (n : Int) (hn : Word.fits n) :
    (Congruence.constant n).join (.constant n) = .constant n := by
  simp [Congruence.join, Congruence.constant, Congruence.gcd, Congruence.ofResidue, hn]

lemma confined_of_constant (h : reduced i (.constant n) = .ok r) : r.Confined d := by
  unfold reduced at h
  split at h <;> cases h
  · exact .inl rfl
  · split
    exacts [confined_constant n, .inl rfl]

/-- Both are constants, and they differ. -/
def Differ (a b : IntVal) : Prop := ∃ m n, m ≠ n ∧ a = constant m ∧ b = constant n

lemma Confined.join (hwa : a.WellFormed) (ha : a.Confined d) (hb : b.Confined d)
    (h : a.join b = .ok r) : r.Confined d ∨ a.Differ b := by
  unfold IntVal.join at h
  split_ifs at h with hab hbb
  · cases h
    exact .inl hb
  · cases h
    exact .inl ha
  rw [Bool.not_eq_true] at hab hbb
  rcases ha.merge hb hab hbb with ⟨m, n, rfl, rfl⟩ | ⟨hi, hg⟩
  · by_cases hmn : m = n
    · subst hmn
      rw [show (constant m).congruence.join (constant m).congruence = _ from
        join_constant m hwa.congruence.1] at h
      exact .inl (confined_of_constant h)
    · exact .inr ⟨m, n, hmn, rfl, rfl⟩
  · refine .inl (confined_reduced (fun hd => ?_) (fun hd => ?_) h)
    · rcases hi hd with htop | htop <;> simp [htop, Interval.join_top, Interval.top_join]
    · rcases hg hd with htop | htop <;> simp [htop, Congruence.join_top, Congruence.top_join]

lemma Confined.widen (hwa : a.WellFormed) (ha : a.Confined d) (hb : b.Confined d) :
    (a.widen b).Confined d ∨ a.Differ b := by
  unfold IntVal.widen
  split_ifs with hab hbb
  · exact .inl hb
  · exact .inl ha
  rw [Bool.not_eq_true] at hab hbb
  rcases ha.merge hb hab hbb with ⟨m, n, rfl, rfl⟩ | ⟨hi, hg⟩
  · by_cases hmn : m = n
    · subst hmn
      refine .inl (.inr (.inl ⟨m, ?_⟩))
      rw [constant, Interval.widen, Congruence.widen, join_constant m hwa.congruence.1]
      simp
    · exact .inr ⟨m, n, hmn, rfl, rfl⟩
  · refine .inl (.inr (.inr ⟨fun hd => ?_, fun hd => ?_⟩))
    · have hne : a.interval.isEmpty = false := (Bool.or_eq_false_iff.1 hab).1
      rcases hi hd with htop | htop <;> simp [htop, widen_top hne, top_widen]
    · rcases hg hd with htop | htop <;>
        simp [htop, Congruence.widen, Congruence.join_top, Congruence.top_join]

lemma Confined.narrow (hwa : a.WellFormed) (hwb : b.WellFormed) (ha : a.Confined d)
    (hb : b.Confined d) (h : a.narrow b = .ok r) : r.Confined d := by
  unfold IntVal.narrow at h
  rcases ha with rfl | ⟨m, rfl⟩ | ⟨hai, hag⟩
  · cases h
    exact .inl rfl
  · exact confined_of_constant h
  rcases hb with rfl | ⟨n, rfl⟩ | ⟨hbi, hbg⟩
  · rw [show a.interval.narrow bottom.interval = .bottom by simp [Interval.narrow, bottom]] at h
    cases h
    exact .inl rfl
  · by_cases htop : a.congruence.isTop = true
    · rw [Congruence.narrow, if_pos htop] at h
      exact confined_of_constant h
    by_cases hd : d.interval = true
    · exact .inr (.inr ⟨by simp [hd], fun hc => absurd (by rw [hag hc]; rfl) htop⟩)
    · have hnarrow : Interval.top.narrow (constant n).interval = (constant n).interval := by
        rw [Interval.narrow, if_neg (by simp [constant])]
        simp [constant, Interval.top, Interval.between]
      rw [hai (by simpa using hd), hnarrow, Congruence.narrow, if_neg htop] at h
      have hconst : (constant n).interval.constant? = some n :=
        constant?_eq_some.2 (constant_eq n)
      rcases reduced_cases hwb.interval hwa.congruence h with
        rfl | ⟨m, -, -, -, rfl⟩ | ⟨-, hnone, -⟩ | hstride
      · exact .inl rfl
      · exact confined_constant m
      · cases hnone.symm.trans hconst
      · obtain ⟨c, k, low, high, -, hk, hlow, hhigh, -, hne, hnone, rfl⟩ := hstride
        have hpos : 0 < k := by omega
        have hle : (⟨low, high⟩ : Interval).le (constant n).interval :=
          Interval.le_iff.2 (.inr ⟨le_raiseLow hpos hwb.interval.low_fits hlow,
            lowerHigh_le hpos hwb.interval.high_fits hhigh⟩)
        cases hnone.symm.trans (eq_constant_of_le hne hle hconst)
  · refine confined_reduced (fun hd => ?_) (fun hd => ?_) h
    · rw [hai hd, hbi hd]
      rfl
    · rw [hag hd, hbg hd]
      rfl

end IntVal

/-- An integer shows nothing of a disabled domain. -/
def Value.Confined (d : DomainSet) (v : Value) : Prop := ∀ i, v = .int i → i.Confined d

namespace State

variable {env : Env} {s : State} {v u : Value}

lemma confined_settle (hs : s.relation.isEnabled = false) {e : Expr}
    (h : s.settle env e v = .ok u) : u.Confined env.domains := by
  unfold settle at h
  split at h
  · obtain ⟨i, hi, h⟩ := bind_eq_ok.1 h
    rw [hs] at h
    cases h
    rintro _ ⟨⟩
    exact confined_restrict hi
  next hv =>
    cases h
    exact fun i hi => absurd hi (hv i)

lemma confined_eval (hs : s.relation.isEnabled = false) (e : Expr) :
    (s.eval env e).Meets .free (Value.Confined env.domains) := by
  unfold eval
  extract_lets settled
  have hsettled (v : Value) : (settled v).Meets .free (Value.Confined env.domains) :=
    meets_lift fun u hu => confined_settle hs hu
  clear_value settled
  cases e with
  | const | null | unknown | unsupported => exact hsettled _
  | read lv => exact (meets_free _).bind fun _ _ => (meets_free _).bind fun v _ => hsettled v
  | addrOf lv => exact (meets_free _).bind fun _ _ => hsettled _
  | arith op a b =>
    exact (meets_free _).bind fun _ _ => (meets_free _).bind fun _ _ =>
      (meets_free _).bind fun v _ => hsettled v
  | neg a => exact (meets_free _).bind fun _ _ => (meets_free _).bind fun i _ => hsettled (.int i)
  | truth c => exact (meets_free _).bind fun _ _ => hsettled _

lemma confined_meetTarget {target : Value} (h : meetTarget env v target = .ok (some u)) :
    u.Confined env.domains := by
  rintro i rfl
  unfold meetTarget at h
  split at h
  · obtain ⟨j, hj, h⟩ := bind_eq_ok.1 h
    obtain ⟨k, hk, h⟩ := bind_eq_ok.1 h
    cases h
    exact confined_restrict hk
  · obtain ⟨k, hk, h⟩ := bind_eq_ok.1 h
    cases h
    exact confined_restrict hk
  all_goals cases h

lemma confined_bindParam {callee : String} {entry : State} {param : VarDecl} {e : Expr} {i : IntVal}
    (hparam : ∀ name, param.ty ≠ .struct name) :
    (s.bindParam env callee entry param (some (e, .int i))).Meets .free fun t =>
      (t.get (.ofLocal callee param.name)).Confined (env.settings.domainsFor callee) := by
  unfold bindParam
  split
  next hstruct _ => exact absurd hstruct (hparam _)
  next heq _ =>
    cases heq
    refine meets_lift_bind fun j hj => meets_lift fun t ht => ?_
    rcases get_set ht (.ofLocal callee param.name) with ⟨-, hget | hget⟩ | ⟨hne, -⟩
    · rw [hget]
      rintro _ ⟨⟩
      exact confined_restrict hj
    · rw [hget]
      rintro _ ⟨⟩
    · exact absurd rfl hne
  next hint heq _ =>
    cases heq
    exact absurd rfl (hint i)
  next heq => cases heq

end State

/-- What a function computes shows nothing of the domains that are disabled for it, if there are no
relations.  Merging two such values keeps that, unless they are different constants, and narrowing
one by another keeps it. -/
theorem disabled_domains_hidden {env : Env} {s : State} (hs : s.relation.isEnabled = false) :
    (∀ e, (s.eval env e).Meets .free (Value.Confined env.domains)) ∧
    (∀ current target v, State.meetTarget env current target = .ok (some v) →
      v.Confined env.domains) ∧
    (∀ callee entry param e i, (∀ name, param.ty ≠ .struct name) →
      (s.bindParam env callee entry param (some (e, .int i))).Meets .free fun t =>
        (t.get (.ofLocal callee param.name)).Confined (env.settings.domainsFor callee)) ∧
    ∀ (d : DomainSet) (a b : IntVal), a.WellFormed → b.WellFormed → a.Confined d → b.Confined d →
      (∀ r, a.join b = .ok r → r.Confined d ∨ a.Differ b) ∧ ((a.widen b).Confined d ∨ a.Differ b) ∧
        ∀ r, a.narrow b = .ok r → r.Confined d := by
  refine ⟨State.confined_eval hs, fun _ _ _ => State.confined_meetTarget,
    fun _ _ _ _ _ => State.confined_bindParam, fun d a b hwa hwb ha hb => ?_⟩
  exact ⟨fun _ => ha.join hwa hb, ha.widen hwa hb, fun _ => ha.narrow hwa hwb hb⟩

/-- With intervals only, the double of an unknown number has no stride, nor has what 3 becomes when
it is widened by the numbers from 0 to 4. -/
theorem disabled_domains_hidden_bareMain :
    (State.unknown .none).relation.isEnabled = false ∧
    ((State.unknown .none).eval State.bareMain (.arith .mul (.var "x") (.const 2))).Meets .free
      (Value.Confined ⟨true, false⟩) ∧
    ((IntVal.constant 3).widen (.range 0 4)).Confined ⟨true, false⟩ := by
  obtain ⟨heval, -, -, hmerge⟩ := @disabled_domains_hidden State.bareMain (.unknown .none) rfl
  have hrange : (IntVal.range 0 4).WellFormed :=
    (tight_ofInterval (proper_between (fits_finite.2 (by decide))
      (fits_finite.2 (by decide)))).wellFormed
  refine ⟨rfl, heval _, (hmerge _ _ _ (tight_constant (by decide)).wellFormed hrange
    (confined_constant 3) (.inr (.inr ⟨by simp, fun _ => rfl⟩))).2.1.resolve_right ?_⟩
  rintro ⟨m, n, -, -, h⟩
  cases congrArg IntVal.congruence h

/-- A function that sets a variable to 1 or to 3. -/
def oneOrThree : List FunctionDef := [
  ⟨"main", [], [⟨"x", .int⟩], .ite (.cmp .eq .unknown (.const 0))
    (.act (.assign (.var "x") (.const 1))) (.act (.assign (.var "x") (.const 3)))⟩]

/-- Analysed with intervals only, the variable of `oneOrThree` is known to be odd in the end. -/
theorem merged_constants_leave_stride : ∃ g result i, Graph.ofFunctions {} oneOrThree = .ok g ∧
    analyze g {} = .ok result ∧
    (result.solution.state ⟨1, ⟨.main, .callString []⟩⟩).get (.ofLocal "main" "x") = .int i ∧
    ¬ i.Confined (({} : Settings).domainsFor "main") := by
  obtain ⟨g, hg, hok⟩ := exists_of_any (x := Graph.ofFunctions {} oneOrThree) (p := fun g =>
    (analyze g {}).toOption.any fun result =>
      (result.solution.state ⟨1, ⟨.main, .callString []⟩⟩).get (.ofLocal "main" "x") ==
        .int ⟨⟨.finite 1, .finite 3⟩, .residue 1 2⟩) (by decide +kernel)
  obtain ⟨result, hresult, hok⟩ := exists_of_any hok
  refine ⟨g, result, _, hg, hresult, eq_of_beq hok, ?_⟩
  rintro (h | ⟨n, h⟩ | ⟨-, h⟩)
  · cases h
  · cases congrArg IntVal.congruence h
  · cases h rfl

end StaticAnalysis
