import StaticAnalysis.Proofs.Shared.Order
import StaticAnalysis.Shared.Store

/-!
# Reasoning about steps

A step asks a store for shared values and states and hands it contributions.  A `Contract` says what
may be assumed of the answers, what must be shown of each contribution, and what may be assumed once
it was accepted; `Step.Meets` is the weakest precondition of a step under a contract.

The rules follow the ways in which steps are put together, so that a proof about a transfer function
has the shape of the function and never mentions a store.
-/

namespace StaticAnalysis

open List

/-- What a step may assume of a store and owes to it. -/
structure Contract where
  /-- What may be assumed of the value of a key. -/
  answers : GlobalKey → GlobalValue → Prop
  /-- What may be assumed of the state of a point. -/
  states : Point → Option State → Prop
  /-- Answers to a request for a state after which a step must go on in the same way. -/
  alike : Option State → Option State → Prop
  /-- What must be shown of a contribution. -/
  offers : GlobalKey → GlobalValue → Prop
  /-- What may be assumed of a contribution afterwards. -/
  accepted : GlobalKey → GlobalValue → Prop

/-- Nothing is assumed of a store and nothing is owed to it. -/
def Contract.free : Contract where
  answers _ _ := True
  states _ _ := True
  alike _ _ := False
  offers _ _ := True
  accepted _ _ := True

namespace Step

variable {α β σ : Type}

instance : LawfulMonad Step := LawfulMonad.mk' Step
  (fun x => by
    change x.bind .done = x
    induction x with
    | done a => rfl
    | fault e => rfl
    | lookup key next ih => exact congrArg (lookup key) (funext ih)
    | stateAt p next ih => exact congrArg (stateAt p) (funext ih)
    | contribute key v next ih => exact congrArg (contribute key v) ih)
  (fun _ _ => rfl)
  (fun x f g => by
    change (x.bind f).bind g = x.bind fun a => (f a).bind g
    induction x with
    | done a => rfl
    | fault e => rfl
    | lookup key next ih => exact congrArg (lookup key) (funext ih)
    | stateAt p next ih => exact congrArg (stateAt p) (funext ih)
    | contribute key v next ih => exact congrArg (contribute key v) ih)

/-- Under a contract, every result of a step satisfies `Q` and every contribution is owed. -/
def Meets (C : Contract) (Q : α → Prop) : Step α → Prop
  | .done a => Q a
  | .fault _ => True
  | .lookup key next => ∀ v, C.answers key v → (next v).Meets C Q
  | .stateAt p next =>
    (∀ s t, C.alike s t → next s = next t) ∧ ∀ s, C.states p s → (next s).Meets C Q
  | .contribute key v next => C.offers key v ∧ (C.accepted key v → next.Meets C Q)

variable {C : Contract} {Q : α → Prop} {R : β → Prop}
variable {a : α} {x : Step α} {f : α → Step β} {e : Except Fault α} {l : List α} {b : β}

lemma meets_pure (h : Q a) : (pure a : Step α).Meets C Q := h

lemma Meets.bind (hx : x.Meets C Q) (hf : ∀ a, Q a → (f a).Meets C R) : (x >>= f).Meets C R := by
  induction x with
  | done a => exact hf a hx
  | fault e => trivial
  | lookup key next ih => exact fun v hv => ih v (hx v hv)
  | stateAt p next ih =>
    exact ⟨fun s t h => congrArg (·.bind f) (hx.1 s t h), fun s hs => ih s (hx.2 s hs)⟩
  | contribute key v next ih => exact ⟨hx.1, fun ha => ih (hx.2 ha)⟩

lemma Meets.mono {Q' : α → Prop} (hx : x.Meets C Q) (h : ∀ a, Q a → Q' a) : x.Meets C Q' := by
  induction x with
  | done a => exact h a hx
  | fault e => trivial
  | lookup key next ih => exact fun v hv => ih v (hx v hv)
  | stateAt p next ih => exact ⟨hx.1, fun s hs => ih s (hx.2 s hs)⟩
  | contribute key v next ih => exact ⟨hx.1, fun ha => ih (hx.2 ha)⟩

lemma Meets.map {f : α → β} (hx : x.Meets C Q) (h : ∀ a, Q a → R (f a)) : (f <$> x).Meets C R :=
  hx.bind fun a ha => meets_pure (h a ha)

lemma meets_lift (h : ∀ a, e = .ok a → Q a) : (liftM e : Step α).Meets C Q := by
  cases e with
  | ok a => exact h a rfl
  | error f => trivial

lemma meets_lift_bind (h : ∀ a, e = .ok a → (f a).Meets C R) :
    ((liftM e : Step α) >>= f).Meets C R :=
  (meets_lift (Q := fun a => e = .ok a) fun _ ha => ha).bind h

lemma meets_foldlM {P : σ → Prop} {f : σ → α → Step σ} {s : σ}
    (hstep : ∀ s x, x ∈ l → P s → (f s x).Meets C P) (hs : P s) : (l.foldlM f s).Meets C P := by
  induction l generalizing s with
  | nil => exact hs
  | cons x l ih =>
    rw [foldlM_cons]
    refine (hstep s x mem_cons_self hs).bind fun s' hs' => ?_
    exact ih (fun s x hx => hstep s x (mem_cons_of_mem _ hx)) hs'

lemma meets_foldlM_rest {I : List α → σ → Prop} {f : σ → α → Step σ} {s : σ}
    (hstep : ∀ x rest s, x ∈ l → I (x :: rest) s → (f s x).Meets C (I rest)) (hs : I l s) :
    (l.foldlM f s).Meets C (I []) := by
  induction l generalizing s with
  | nil => exact hs
  | cons x l ih =>
    rw [foldlM_cons]
    refine (hstep x l s mem_cons_self hs).bind fun s' hs' => ?_
    exact ih (fun x rest s hx => hstep x rest s (mem_cons_of_mem _ hx)) hs'

lemma meets_mapM (h : ∀ x ∈ l, (f x).Meets C R) : (l.mapM f).Meets C (fun r => ∀ b ∈ r, R b) := by
  induction l with
  | nil =>
    rw [mapM_nil]
    exact meets_pure (by simp)
  | cons x l ih =>
    rw [mapM_cons]
    refine (h x mem_cons_self).bind fun b hb => ?_
    refine (ih fun x hx => h x (mem_cons_of_mem _ hx)).bind fun r hr => ?_
    refine meets_pure fun c hc => ?_
    rcases mem_cons.1 hc with rfl | hc
    exacts [hb, hr c hc]

lemma meets_forM {f : α → Step PUnit} (h : ∀ x ∈ l, (f x).Meets C (fun _ => True)) :
    (l.forM f).Meets C (fun _ => True) := by
  induction l with
  | nil => trivial
  | cons x l ih =>
    exact (h x mem_cons_self).bind fun _ _ => ih fun y hy => h y (mem_cons_of_mem _ hy)

/-! ## Requests -/

variable {key : GlobalKey} {v : GlobalValue} {ς : Type}

lemma meets_lookup : (Shared.lookup key).Meets C (C.answers key) :=
  fun _ h => h

lemma meets_stateAt {p : Point} {f : Option State → Step α}
    (halike : ∀ s t, C.alike s t → f s = f t) (hf : ∀ s, C.states p s → (f s).Meets C Q) :
    (Shared.stateAt p >>= f).Meets C Q :=
  ⟨halike, hf⟩

lemma meets_contribute (h : C.offers key v) :
    (Shared.contribute key v).Meets C (fun _ => C.accepted key v) :=
  ⟨h, fun ha => ha⟩

lemma run_contribute [SharedStore ς] {next : Step α} {s t : ς}
    (h : (contribute key v next).run s = .ok a t) : ∃ s', SharedStore.contribute key v s = .ok s' ∧
    next.run s' = .ok a t := by
  simp only [run] at h
  split at h
  next s' hs' => exact ⟨s', hs', h⟩
  next => cases h

lemma run_bind_eq_ok [SharedStore ς] {s t : ς} :
    (x >>= f).run s = .ok b t ↔ ∃ a s', x.run s = .ok a s' ∧ (f a).run s' = .ok b t := by
  change (x.bind f).run s = .ok b t ↔ _
  induction x generalizing s with
  | done a => simp [Step.bind, run]
  | fault e => simp [Step.bind, run]
  | lookup key next ih => exact ih _
  | stateAt p next ih => exact ih _
  | contribute key v next ih =>
    simp only [Step.bind, run]
    split
    · exact ih
    · simp

lemma run_lift_eq_ok [SharedStore ς] {s t : ς} : (liftM e : Step α).run s = .ok a t ↔ e = .ok a ∧
    s = t := by
  cases e with
  | ok b => simp [liftM, monadLift, MonadLift.monadLift, ofExcept, run]
  | error f => simp [liftM, monadLift, MonadLift.monadLift, ofExcept, run]

lemma meets_free (x : Step α) : x.Meets .free fun _ => True := by
  induction x with
  | done a => trivial
  | fault e => trivial
  | lookup key next ih => exact fun v _ => ih v
  | stateAt p next ih => exact ⟨fun _ _ => False.elim, fun s _ => ih s⟩
  | contribute key v next ih => exact ⟨trivial, fun _ => ih⟩

lemma Meets.of_free (hx : x.Meets .free Q) (halike : ∀ s t, ¬ C.alike s t)
    (hoffers : ∀ key v, C.offers key v) : x.Meets C Q := by
  induction x with
  | done a => exact hx
  | fault e => trivial
  | lookup key next ih => exact fun v _ => ih v (hx v trivial)
  | stateAt p next ih =>
    exact ⟨fun s t h => absurd h (halike s t), fun s _ => ih s (hx.2 s trivial)⟩
  | contribute key v next ih => exact ⟨hoffers key v, fun _ => ih (hx.2 trivial)⟩

lemma Meets.run [SharedStore ς] {s t : ς} (hx : x.Meets .free Q) (h : x.run s = .ok a t) : Q a := by
  induction x generalizing s with
  | done b =>
    cases h
    exact hx
  | fault e => cases h
  | lookup key next ih => exact ih _ (hx _ trivial) h
  | stateAt p next ih => exact ih _ (hx.2 _ trivial) h
  | contribute key v next ih =>
    obtain ⟨s', -, h⟩ := run_contribute h
    exact ih (hx.2 trivial) h

lemma bind_eq_pure : x >>= f = pure b ↔ ∃ a, x = pure a ∧ f a = pure b := by
  constructor
  · intro h
    change x.bind f = .done b at h
    cases x with
    | done a => exact ⟨a, rfl, h⟩
    | _ => cases h
  · rintro ⟨a, rfl, h⟩
    exact h

lemma lift_eq_pure : (liftM e : Step α) = pure a ↔ e = .ok a := by
  cases e with
  | ok b => exact ⟨fun h => congrArg Except.ok (done.inj h),
    fun h => congrArg done (Except.ok.inj h)⟩
  | error f => exact ⟨nofun, nofun⟩

end Step

/-! ## Flatness -/

/-- Values and states of a store are flat and fit their keys, and so must contributions.  A point
without a state is like an unreachable one. -/
def Contract.flat : Contract where
  answers key v := key.Fits v
  states _ s := ∀ t, s = some t → t.Flat
  alike s t := ∃ u : State, u.Flat ∧ u.reachable = false ∧ s = some u ∧ t = none
  offers key v := key.Fits v
  accepted _ _ := True

/-- Every result of a step is as `Q` says when all it reads is flat, and all it contributes is
flat. -/
abbrev Step.KeepsFlat {α : Type} (Q : α → Prop) (x : Step α) : Prop := x.Meets .flat Q

end StaticAnalysis
