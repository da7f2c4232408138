import StaticAnalysis.Proofs.Soundness.IntegerEvaluation

/-!
# Evaluation covers runs

At a moment that a state covers, the value of an expression has what the expression yields there,
and the truth of a condition admits its outcome.  Evaluation keeps values numeric, covered moment or
not.
-/

namespace StaticAnalysis

/-- What the functions of a sequential integer program may assume of the store, and owe to it. -/
structure Contract.Numeric (C : Contract) : Prop where
  answers : ∀ k v, C.answers k v → v.Numeric
  states : ∀ p o, C.states p o → ∀ t, o = some t → t.Numeric
  alike : ∀ s t, ¬ C.alike s t
  offers : ∀ k v, k.Fits v → v.Numeric → C.offers k v

/-- The environment of a transition of a sequential integer program. -/
structure Env.Sequential (env : Env) : Prop where
  relation : env.settings.relation = .none
  graph : env.graph.Sequential

lemma Env.Sequential.scalar {env : Env} (h : env.Sequential) : env.Scalar :=
  ⟨h.relation, h.graph.scalar⟩

namespace State

open Step

variable {C : Contract} {env : Env} {s : State} {m : Moment}

/-- A value is numeric, and at a covered moment it has what is asked for. -/
structure Evaluates (env : Env) (s : State) (m : Moment) (P : Int → Prop) (v : Value) : Prop where
  numeric : v.Numeric
  has : s.Covers env.modular m → ∀ n, P n → v.Has n

/-- At a covered moment the truth of a condition admits its outcome. -/
def Decides (env : Env) (s : State) (m : Moment) (c : Cond) (t : Truth) : Prop :=
  s.Covers env.modular m → ∀ b, c.Outcome (m.read env.graph) b → t.Admits b

lemma isVariable_iff {name : String} : isVariable name ↔ name ≠ retName := by
  simp [isVariable]

lemma content?_varCell (hm : m.function = env.function) {x : String} (hx : isVariable x)
    (h : ofCaller env (env.varCell x) = false) :
    m.content? env.modular (env.varCell x) = some (m.read env.graph x) := by
  have hheld : m.held x = m.locals x := if_neg (isVariable_iff.1 hx)
  have hlocal : env.graph.isLocalIn m.function x = env.isLocal x := by rw [hm]; rfl
  unfold Moment.read
  rw [hlocal]
  unfold Env.varCell at h ⊢
  split
  next hl =>
    rw [← hm, Moment.content?_local, hheld]
  next hl =>
    rw [if_neg hl] at h
    have hmodular : env.modular = false := by
      simpa [ofCaller, Cell.ofGlobal, Cell.isGlobal, Base.rank] using h
    rw [hmodular, Moment.content?_global]

section

variable (hC : C.Numeric)
include hC

lemma meets_recordEffect {t : Summary} (ht : t.Numeric) :
    (recordEffect env t).Meets C fun _ => C.accepted (.summary env.function) (.summary t) :=
  meets_contribute (hC.offers _ _ (fits_summary ht.flat) ht)

lemma fits_view (hm : m.function = env.function) :
    (m.view env.modular env.graph).Fits C env isVariable where
  content_eq _ := content?_varCell hm
  offers c :=
    have hread := Summary.numeric_ofRead c
    hC.offers _ _ (fits_summary hread.flat) hread

lemma evaluates_eval (hs : s.Numeric) (hm : m.function = env.function) (e : Expr)
    (he : e.isInteger) :
    (s.eval env e).Meets C (Evaluates env s m (e.Yields (m.read env.graph))) := by
  rw [Expr.isInteger_eq] at he
  refine (Reading.gives_eval (evaluates_integers (K := .numeric) (fits_view hC hm)) hs e he).mono
    fun v hv => ?_
  exact ⟨hv.mem, fun hcov => hv.has (covers_iff.1 hcov)⟩

lemma decides_evalCond (hs : s.Numeric) (hm : m.function = env.function) (c : Cond)
    (hc : c.isInteger) : (s.evalCond env c).Meets C (Decides env s m c) := by
  rw [Cond.isInteger_eq] at hc
  refine (Reading.judges_evalCond (evaluates_integers (K := .numeric) (fits_view hC hm)) hs c
    hc).mono fun t ht => ?_
  exact fun hcov => ht (covers_iff.1 hcov)

end

end State
end StaticAnalysis
