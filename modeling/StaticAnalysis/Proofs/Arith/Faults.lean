import Mathlib.Data.List.Forall2

/-!
# Computations that may fault

How a computation in `Except Fault` that has a result is taken apart: a sequence has a result
exactly when each part has, and what every round of a loop keeps holds of the loop's result.
-/

namespace StaticAnalysis

open List

namespace Fault

variable {ε α β σ : Type} {x : Except ε α} {l : List α}

@[simp] lemma ok_bind (a : α) (f : α → Except ε β) : (Except.ok a >>= f) = f a := rfl

@[simp] lemma error_bind (e : ε) (f : α → Except ε β) : (Except.error e >>= f) = .error e := rfl

@[simp] lemma pure_eq_ok (a : α) : (pure a : Except ε α) = .ok a := rfl

/-- A test of what a computation returns shows that it returns. -/
lemma exists_of_any {p : α → Bool} (h : x.toOption.any p) : ∃ a, x = .ok a ∧ p a := by
  cases x with
  | error => cases h
  | ok a => exact ⟨a, rfl, h⟩

variable {f : α → Except ε β} {b : β} {P : σ → Prop} {s : σ} {a : α}

lemma bind_eq_ok : (x >>= f) = .ok b ↔ ∃ a, x = .ok a ∧ f a = .ok b := by
  cases x <;> simp

lemma bind_eq_error {e : ε} : (x >>= f) = .error e ↔ x = .error e ∨ ∃ a, x = .ok a ∧
    f a = .error e := by
  cases x <;> simp

lemma map_eq_ok {f : α → β} : (f <$> x) = .ok b ↔ ∃ a, x = .ok a ∧ f a = b := by
  cases x with
  | error e =>
    change Except.error e = Except.ok b ↔ _
    simp
  | ok a =>
    change Except.ok (f a) = Except.ok b ↔ _
    simp

@[elab_as_elim]
lemma foldlM_induct {f : σ → α → Except ε σ} {r : σ}
    (hstep : ∀ s x s', x ∈ l → P s → f s x = .ok s' → P s') (hs : P s) (h : l.foldlM f s = .ok r) :
    P r := by
  induction l generalizing s with
  | nil => cases h; exact hs
  | cons x l ih =>
    rw [foldlM_cons, bind_eq_ok] at h
    obtain ⟨s', hs', hr⟩ := h
    exact ih (fun s x s' hx => hstep s x s' (mem_cons_of_mem _ hx))
      (hstep s x s' mem_cons_self hs hs') hr

lemma foldlM_induct₂ {τ : Type} {R : σ → τ → Prop} {f : σ → α → Except ε σ} {g : τ → α → Except ε τ}
    {r : σ} {t r' : τ} (hstep : ∀ s t x s' t', R s t → f s x = .ok s' → g t x = .ok t' → R s' t')
    (hst : R s t) (h : l.foldlM f s = .ok r) (h' : l.foldlM g t = .ok r') : R r r' := by
  induction l generalizing s t with
  | nil =>
    cases h
    cases h'
    exact hst
  | cons x l ih =>
    rw [foldlM_cons, bind_eq_ok] at h h'
    obtain ⟨s', hs', hr⟩ := h
    obtain ⟨t', ht', hr'⟩ := h'
    exact ih (hstep s t x s' t' hst hs' ht') hr hr'

lemma foldlM_total {f : σ → α → Except ε σ} (hstep : ∀ s x, x ∈ l → P s → ∃ s', f s x = .ok s' ∧
    P s') (hs : P s) : ∃ r, l.foldlM f s = .ok r ∧ P r := by
  induction l generalizing s with
  | nil => exact ⟨s, rfl, hs⟩
  | cons x l ih =>
    obtain ⟨s', hs', hP⟩ := hstep s x mem_cons_self hs
    obtain ⟨r, hr, hP'⟩ := ih (fun s y hy => hstep s y (mem_cons_of_mem _ hy)) hP
    exact ⟨r, by rw [foldlM_cons, hs', ok_bind, hr], hP'⟩

lemma foldlM_visit {R : α → σ → Prop} {f : σ → α → Except ε σ} {r : σ}
    (hstep : ∀ s x s', x ∈ l → P s → f s x = .ok s' → P s' ∧ R x s' ∧ ∀ y ∈ l, R y s → R y s')
    (hs : P s)
    (h : l.foldlM f s = .ok r) : P r ∧ ∀ x ∈ l, R x r := by
  -- The elements still to come are those of `todo`; the others are done.
  suffices hall : ∀ todo : List α, (∀ x ∈ todo, x ∈ l) → ∀ s : σ, P s →
      (∀ x ∈ l, x ∈ todo ∨ R x s) → todo.foldlM f s = .ok r → P r ∧ ∀ x ∈ l, R x r from
    hall l (fun _ => id) s hs (fun _ hx => .inl hx) h
  intro todo
  induction todo with
  | nil =>
    intro _ s hs hdone h
    cases h
    exact ⟨hs, fun x hx => (hdone x hx).resolve_left not_mem_nil⟩
  | cons x todo ih =>
    intro hmem s hs hdone h
    rw [foldlM_cons, bind_eq_ok] at h
    obtain ⟨s', hs', hr⟩ := h
    obtain ⟨hP, hx, hkeep⟩ := hstep s x s' (hmem x mem_cons_self) hs hs'
    refine ih (fun y hy => hmem y (mem_cons_of_mem _ hy)) s' hP (fun y hy => ?_) hr
    rcases hdone y hy with hy' | hy'
    · rcases mem_cons.1 hy' with rfl | hy'
      exacts [.inr hx, .inl hy']
    · exact .inr (hkeep y hy hy')

variable {r : List β}

lemma mapM_eq_ok : l.mapM f = .ok r ↔ Forall₂ (fun a b => f a = .ok b) l r := by
  induction l generalizing r with
  | nil =>
    rw [mapM_nil]
    constructor
    · intro h; cases h; exact .nil
    · intro h; cases h; rfl
  | cons a l ih =>
    rw [mapM_cons, bind_eq_ok]
    constructor
    · rintro ⟨b, hb, h⟩
      obtain ⟨bs, hbs, h⟩ := bind_eq_ok.1 h
      cases h
      exact .cons hb (ih.1 hbs)
    · intro h
      cases h with
      | cons hb hbs => exact ⟨_, hb, bind_eq_ok.2 ⟨_, ih.2 hbs, rfl⟩⟩

lemma exists_of_forall₂ {R : α → β → Prop} (h : Forall₂ R l r) (ha : a ∈ l) : ∃ b ∈ r, R a b := by
  induction h with
  | nil => cases ha
  | cons hab _ ih =>
    rcases mem_cons.1 ha with rfl | ha
    · exact ⟨_, mem_cons_self, hab⟩
    · obtain ⟨b, hb, hab⟩ := ih ha
      exact ⟨b, mem_cons_of_mem _ hb, hab⟩

lemma mem_of_mapM (h : l.mapM f = .ok r) (hb : b ∈ r) : ∃ a ∈ l, f a = .ok b :=
  exists_of_forall₂ (mapM_eq_ok.1 h).flip hb

lemma exists_of_mapM (h : l.mapM f = .ok r) (ha : a ∈ l) : ∃ b ∈ r, f a = .ok b :=
  exists_of_forall₂ (mapM_eq_ok.1 h) ha

lemma forall₂_of_filterMapM {f : α → Except ε (Option β)} (h : l.filterMapM f = .ok r) :
    ∃ os, Forall₂ (fun a o => f a = .ok o) l os ∧ r = os.filterMap id := by
  induction l generalizing r with
  | nil =>
    cases h
    exact ⟨[], .nil, rfl⟩
  | cons a l ih =>
    rw [filterMapM_cons] at h
    obtain ⟨o, ho, h⟩ := bind_eq_ok.1 h
    cases o with
    | none =>
      obtain ⟨os, hos, rfl⟩ := ih h
      exact ⟨none :: os, .cons ho hos, rfl⟩
    | some b =>
      obtain ⟨bs, hbs, h⟩ := bind_eq_ok.1 h
      obtain ⟨os, hos, rfl⟩ := ih hbs
      cases h
      exact ⟨some b :: os, .cons ho hos, rfl⟩

lemma mem_filterMapM {f : α → Except ε (Option β)}
    (h : l.filterMapM f = .ok r) : (∀ b ∈ r, ∃ a ∈ l, f a = .ok (some b)) ∧
      ∀ a ∈ l, ∃ o, f a = .ok o ∧ ∀ b, o = some b → b ∈ r := by
  obtain ⟨os, hos, rfl⟩ := forall₂_of_filterMapM h
  refine ⟨fun b hb => exists_of_forall₂ hos.flip (by simpa using hb), fun a ha => ?_⟩
  obtain ⟨o, ho, hao⟩ := exists_of_forall₂ hos ha
  exact ⟨o, hao, fun b hb => by simpa using hb ▸ ho⟩

/-- A loop over tests that never fault decides whether all of them succeed. -/
lemma exists_allM {f : α → Except ε Bool} {P : α → Prop}
    (h : ∀ a ∈ l, ∃ b, f a = .ok b ∧ (b ↔ P a)) : ∃ b, l.allM f = .ok b ∧ (b ↔ ∀ a ∈ l, P a) := by
  induction l with
  | nil => exact ⟨true, rfl, by simp⟩
  | cons a l ih =>
    obtain ⟨b, hb, hP⟩ := h a mem_cons_self
    obtain ⟨c, hc, hall⟩ := ih fun x hx => h x (mem_cons_of_mem _ hx)
    rw [allM, hb, ok_bind, forall_mem_cons, ← hP, ← hall]
    cases b with
    | true => exact ⟨c, hc, by simp⟩
    | false => exact ⟨false, rfl, by simp⟩

lemma allM_eq_true {f : α → Except ε Bool} (h : ∀ a ∈ l, f a = .ok true) : l.allM f = .ok true := by
  obtain ⟨b, hb, hall⟩ := exists_allM (P := fun _ => True) fun a ha => ⟨true, h a ha, by simp⟩
  rw [hb, hall.2 fun _ _ => trivial]

lemma of_allM_eq_true {f : α → Except ε Bool} (h : l.allM f = .ok true) :
    ∀ a ∈ l, f a = .ok true := by
  induction l with
  | nil => exact fun a ha => absurd ha not_mem_nil
  | cons a l ih =>
    obtain ⟨b, hb, h⟩ := bind_eq_ok.1 h
    cases b with
    | false => cases h
    | true => exact forall_mem_cons.2 ⟨hb, ih h⟩

end Fault
end StaticAnalysis
