import StaticAnalysis.Proofs.Memory.Values

/-!
# Values that differ only where they are void

Joining two values in either order does not give one value, as of two void values the second is
returned.  The results are *alike*: they are built in the same way, up to parts that describe
nothing (`alike_join_comm`).  Joins of alike values are alike (`alike_join`), which the order of
values alone does not give, since an array that is split at a lower index can have a larger join.
-/

namespace StaticAnalysis

open Fault Nat Segmented

/-! ## Related arrays -/

namespace Segmented

variable {α β : Type} {R S : α → β → Prop} {a a₂ c : Segmented α} {b b₂ d : Segmented β}

/-- Two arrays of one length, split at one place, whose segments are related. -/
inductive Lift (R : α → β → Prop) : Segmented α → Segmented β → Prop
  | whole {n v w} (h : R v w) : Lift R ⟨n, .whole v⟩ ⟨n, .whole w⟩
  | split {n k left left' mid mid' right right'} (hleft : R left left') (hmid : R mid mid')
    (hright : R right right') : Lift R ⟨n, .split k left mid right⟩ ⟨n, .split k left' mid' right'⟩

namespace Lift

lemma of_valueAt (hlength : a.length = b.length) (hsplit : a.sameSplit? b = some true)
    (h : ∀ i, R (a.valueAt i) (b.valueAt i)) : Lift R a b := by
  obtain ⟨n, _ | ⟨k, left, mid, right⟩⟩ := a <;> obtain ⟨m, _ | ⟨k', left', mid', right'⟩⟩ := b
  · cases hlength
    exact .whole (h 0)
  · cases hsplit
  · cases hsplit
  · cases hlength
    obtain rfl : k = k' := by simpa [sameSplit?] using hsplit
    have hleft : R left left' := by simpa [valueAt] using h (k - 1)
    have hmid : R mid mid' := by simpa [valueAt] using h k
    have hright : R right right' := by
      simpa [valueAt, show ¬ k + 1 < k by omega] using h (k + 1)
    exact .split hleft hmid hright

lemma sameSplit? (h : Lift R a b) : a.sameSplit? b = some true := by
  cases h with
  | whole h => rfl
  | split hleft hmid hright => simp [sameSplit?]

lemma refl {R : α → α → Prop} (h : ∀ i, R (a.valueAt i) (a.valueAt i)) : Lift R a a :=
  of_valueAt rfl (by obtain ⟨n, _ | _⟩ := a <;> simp [Segmented.sameSplit?]) h

section

variable (h : Lift R a b)
include h

lemma length : a.length = b.length := by cases h <;> rfl

lemma valueAt (i : Int) : R (a.valueAt i) (b.valueAt i) := by
  cases h with
  | whole h => exact h
  | split hleft hmid hright =>
    simp only [valueAt]
    split_ifs
    exacts [hleft, hmid, hright]

lemma indices : a.indices = b.indices := by
  unfold Segmented.indices last?
  rw [h.length]

lemma splits (h₂ : Lift S a₂ b₂) : a.splits a₂ = b.splits b₂ := by
  cases h <;> cases h₂ <;> rfl

lemma segments {p : List (Interval × α)} {q : List (Interval × β)}
    (hp : a.segments = .ok p) (hq : b.segments = .ok q) :
    List.Forall₂ (fun x y => x.1 = y.1 ∧ R x.2 y.2) p q := by
  unfold Segmented.segments at hp hq
  rw [← h.indices] at hq
  obtain ⟨all, hall, hp⟩ := bind_eq_ok.1 hp
  rw [hall, ok_bind] at hq
  cases h with
  | whole h =>
    cases hp
    cases hq
    exact .cons ⟨rfl, h⟩ .nil
  | split hleft hmid hright =>
    obtain ⟨low, hlow, hp⟩ := bind_eq_ok.1 hp
    obtain ⟨high, hhigh, hp⟩ := bind_eq_ok.1 hp
    simp only [hlow, hhigh, ok_bind] at hq
    cases hp
    cases hq
    exact .cons ⟨rfl, hleft⟩ (.cons ⟨rfl, hmid⟩ (.cons ⟨rfl, hright⟩ .nil))

end

end Lift

/-- Two operations take related values to related results. -/
def Respects (R S : α → β → Prop) (f : α → α → Except Fault α) (g : β → β → Except Fault β) :
    Prop :=
  ∀ ⦃v w v' w' u u'⦄, R v v' → R w w' → f v w = .ok u → g v' w' = .ok u' → S u u'

section Operations

variable {bottom : α} {bottom' : β} {join f : α → α → Except Fault α}
  {join' f' : β → β → Except Fault β} {range : Interval} {u : α} {u' : β}

lemma foldlM_lift {P : Interval → Bool} {p : List (Interval × α)} {q : List (Interval × β)}
    (hpq : List.Forall₂ (fun x y => x.1 = y.1 ∧ R x.2 y.2) p q) (hjoin : Respects R R join join')
    {s : α} {s' : β} (hs : R s s')
    (hu : (p.filter fun x => P x.1).foldlM (fun s x => join s x.2) s = .ok u)
    (hu' : (q.filter fun x => P x.1).foldlM (fun s x => join' s x.2) s' = .ok u') : R u u' := by
  induction hpq generalizing s s' with
  | nil =>
    cases hu
    cases hu'
    exact hs
  | @cons x y p q hxy _ ih =>
    rw [List.filter_cons] at hu hu'
    rw [← hxy.1] at hu'
    split at hu
    next hP =>
      rw [if_pos hP, List.foldlM_cons] at hu'
      rw [List.foldlM_cons] at hu
      obtain ⟨t, ht, hu⟩ := bind_eq_ok.1 hu
      obtain ⟨t', ht', hu'⟩ := bind_eq_ok.1 hu'
      exact ih (hjoin hs hxy.2 ht ht') hu hu'
    next hP =>
      rw [if_neg hP] at hu'
      exact ih hs hu hu'

lemma read_lift (h : Lift R a b) (hbottom : R bottom bottom') (hjoin : Respects R R join join')
    (hu : a.read bottom join range = .ok u) (hu' : b.read bottom' join' range = .ok u') :
    R u u' := by
  unfold read at hu hu'
  rw [← h.indices] at hu'
  obtain ⟨all, hall, hu⟩ := bind_eq_ok.1 hu
  rw [hall, ok_bind] at hu'
  obtain ⟨p, hp, hu⟩ := bind_eq_ok.1 hu
  obtain ⟨q, hq, hu'⟩ := bind_eq_ok.1 hu'
  exact foldlM_lift (P := fun i => !(i.meet (range.meet all)).isEmpty) (h.segments hp hq) hjoin
    hbottom hu hu'

lemma reads_lift (h : Lift R a b) (h₂ : Lift R a₂ b₂) (hbottom : R bottom bottom')
    (hjoin : Respects R R join join') (hf : Respects R S f f')
    (hu : Reads bottom join f a a₂ range u) (hu' : Reads bottom' join' f' b b₂ range u') :
    S u u' := by
  obtain ⟨x, y, hx, hy, hu⟩ := hu
  obtain ⟨x', y', hx', hy', hu'⟩ := hu'
  exact hf (read_lift h hbottom hjoin hx hx') (read_lift h₂ hbottom hjoin hy hy') hu hu'

lemma combine_lift (h : Lift R a b) (h₂ : Lift R a₂ b₂) (hbottom : R bottom bottom')
    (hjoin : Respects R R join join') (hf : Respects R S f f')
    (hc : Combined bottom join f a a₂ c) (hd : Combined bottom' join' f' b b₂ d) : Lift S c d := by
  obtain ⟨hlc, hc⟩ := hc
  obtain ⟨hld, hd⟩ := hd
  rw [← h.length, ← h₂.length, ← hlc] at hld
  rw [← h.splits h₂] at hd
  obtain ⟨n, c⟩ := c
  obtain ⟨m, d⟩ := d
  dsimp only at hld
  subst hld
  rcases hc with ⟨v, w, u, ha, ha₂, hu, rfl⟩ |
    ⟨k, low, high, left, mid, right, hk, hlow, hhigh, hleft, hmid, hright, rfl⟩
  · rcases hd with ⟨v', w', u', hb, hb₂, hu', rfl⟩ | ⟨k, low, high, left, mid, right, hk, -⟩
    · have hv := h.valueAt 0
      have hw := h₂.valueAt 0
      simp only [valueAt, ha, ha₂, hb, hb₂] at hv hw
      exact .whole (hf hv hw hu hu')
    · simp [splits, ha, ha₂] at hk
  · rcases hd with ⟨v', w', u', hb, hb₂, -⟩ |
      ⟨k', low', high', left', mid', right', hk', hlow', hhigh', hleft', hmid', hright', rfl⟩
    · rw [h.splits h₂] at hk
      simp [splits, hb, hb₂] at hk
    · rw [hk] at hk'
      cases hk'
      rw [hlow] at hlow'
      rw [hhigh] at hhigh'
      cases hlow'
      cases hhigh'
      exact .split (reads_lift h h₂ hbottom hjoin hf hleft hleft')
        (hf (h.valueAt k) (h₂.valueAt k) hmid hmid')
        (reads_lift h h₂ hbottom hjoin hf hright hright')

lemma Combined.flip {b : Segmented α} (h : Combined bottom join f b a c) :
    Combined bottom join (fun v w => f w v) a b c := by
  obtain ⟨hlength, h⟩ := h
  refine ⟨hlength.trans (by grind), ?_⟩
  rcases h with ⟨v, w, u, hb, ha, hu, hc⟩ | ⟨k, low, high, left, mid, right, hk, hlow, hhigh,
    ⟨x, y, hx, hy, hleft⟩, hmid, ⟨x', y', hx', hy', hright⟩, hc⟩
  · exact .inl ⟨w, v, u, ha, hb, hu, hc⟩
  · rw [splits_comm] at hk
    exact .inr ⟨k, low, high, left, mid, right, hk, hlow, hhigh, ⟨y, x, hy, hx, hleft⟩, hmid,
      ⟨y', x', hy', hx', hright⟩, hc⟩

end Operations

end Segmented

namespace Value

variable {v w u v' w' u' : Value} {a b : ArrayVal} {n m : Nat}

/-! ## Alike values -/

/-- Two values are built in the same way, up to parts that describe nothing. -/
inductive Alike : Value → Value → Prop
  | void {v w : Value} (hv : v.Void) (hw : w.Void) : Alike v w
  | int (a : IntVal) : Alike (.int a) (.int a)
  | addr (a : AddrSet) : Alike (.addr a) (.addr a)
  | whole {n : Option Int} {v w : Value} (h : Alike v w) :
    Alike (.array ⟨n, .whole v⟩) (.array ⟨n, .whole w⟩)
  | split {n : Option Int} {k : Int} {left mid right left' mid' right' : Value}
    (hleft : Alike left left') (hmid : Alike mid mid') (hright : Alike right right') :
    Alike (.array ⟨n, .split k left mid right⟩) (.array ⟨n, .split k left' mid' right'⟩)
  | top : Alike .top .top

lemma alike_array (h : Segmented.Lift Alike a b) : Alike (.array a) (.array b) := by
  cases h with
  | whole h => exact .whole h
  | split hleft hmid hright => exact .split hleft hmid hright

lemma Alike.symm (h : Alike v w) : Alike w v := by
  induction h with
  | void hv hw => exact .void hw hv
  | int a => exact .int a
  | addr a => exact .addr a
  | whole _ ih => exact .whole ih
  | split _ _ _ hleft hmid hright => exact .split hleft hmid hright
  | top => exact .top

lemma alike_refl (v : Value) : Alike v v := by
  induction v using byElements with
  | bottom => exact .void .bottom .bottom
  | int a => exact .int a
  | addr a => exact .addr a
  | array a ih => exact alike_array (.refl ih)
  | top => exact .top

lemma below_of_alike (h : Alike v w) : Below v w := by
  induction h with
  | void hv => exact .void hv
  | int a => exact .refl _
  | addr a => exact .refl _
  | whole _ ih => exact .array (.inr rfl) fun _ _ => ih
  | split _ _ _ hleft hmid hright =>
    refine .array (.inr rfl) fun i _ => ?_
    simp only [valueAt]
    split_ifs
    exacts [hleft, hmid, hright]
  | top => exact .top

lemma Alike.void_iff (h : Alike v w) : v.Void ↔ w.Void :=
  ⟨(below_of_alike h.symm).void_of_void, (below_of_alike h).void_of_void⟩

lemma Alike.eq_or_lift (h : Alike v w) (hv : ¬ v.Void) : (v = w ∧ v.isArray = false) ∨
    ∃ a b, v = .array a ∧ w = .array b ∧ Segmented.Lift Alike a b := by
  cases h with
  | void hv' => exact absurd hv' hv
  | int a | addr a | top => exact .inl ⟨rfl, rfl⟩
  | whole h => exact .inr ⟨_, _, rfl, rfl, .whole h⟩
  | split hleft hmid hright => exact .inr ⟨_, _, rfl, rfl, .split hleft hmid hright⟩

/-! ## Depths -/

lemma depth_array_le (h : ∀ i, (a.valueAt i).depth ≤ n) : (array a).depth ≤ n + 1 := by
  cases Segmented.Lift.refl (R := fun v _ : Value => v.depth ≤ n) h with
  | whole hv =>
    rw [depth]
    exact succ_le_succ hv
  | split hleft hmid hright =>
    rw [depth]
    exact succ_le_succ (max_le hleft (max_le hmid hright))

lemma depth_valueAt_le (h : (array a).depth ≤ n + 1) (i : Int) : (a.valueAt i).depth ≤ n :=
  Nat.lt_succ_iff.1 ((depth_valueAt_lt a i).trans_le h)

lemma not_depth_array_le_zero (a : ArrayVal) : ¬ (array a).depth ≤ 0 := fun h =>
  absurd (depth_valueAt_lt a 0) (by omega)

lemma depth_joinWith {d : Nat} (hv : v.depth ≤ d) (hw : w.depth ≤ d)
    (h : joinWith n v w = .ok u) : u.depth ≤ d := by
  induction n using Nat.strongRecOn generalizing v w u d with
  | ind n ih =>
    rcases joinWith_cases h with ⟨-, rfl⟩ | ⟨-, -, rfl⟩ | ⟨-, -, h⟩
    · exact hw
    · exact hv
    cases joinsTo_of_joinKinds h with
    | @array n a b c hn hc =>
      obtain ⟨d, rfl⟩ : ∃ d', d = d' + 1 :=
        exists_eq_succ_of_ne_zero fun hd => not_depth_array_le_zero a (hd ▸ hv)
      have hf : Segmented.Respects (fun v _ : Value => v.depth ≤ d) (fun v _ => v.depth ≤ d)
          (joinWith n) (joinWith n) := fun _ _ _ _ _ _ hv hw hu _ => ih n (by omega) hv hw hu
      have ha : Segmented.Lift (fun v _ : Value => v.depth ≤ d) a a := .refl (depth_valueAt_le hv)
      have hb : Segmented.Lift (fun v _ : Value => v.depth ≤ d) b b := .refl (depth_valueAt_le hw)
      exact depth_array_le
        (combine_lift ha hb (show bottom.depth ≤ d from Nat.zero_le d) hf hf (combine_cases hc)
          (combine_cases hc)).valueAt
    | _ => exact Nat.zero_le _

/-! ## Joins of alike values -/

lemma joinKinds_fuel (hv : v.isArray = false) : joinKinds n v w = joinKinds m v w := by
  cases v <;> cases w <;> first | rfl | cases hv

lemma joinKinds_array (hw : w.isArray = false) : joinKinds n (.array a) w = .ok .top := by
  cases w <;> first | rfl | cases hw

lemma joinKinds_array_right (hv : v.isArray = false) : joinKinds n v (.array a) = .ok .top := by
  cases v <;> first | rfl | cases hv

/-- Alike values within the fuel. -/
def AlikeWith (n m : Nat) (v w : Value) : Prop := Alike v w ∧ v.depth ≤ n ∧ w.depth ≤ m

lemma respects_joinWith (n m : Nat) :
    Segmented.Respects (AlikeWith n m) (AlikeWith n m) (joinWith n) (joinWith m) := by
  induction n using Nat.strongRecOn generalizing m with
  | ind n ih =>
    intro v w v' w' u u' hv hw h h'
    refine ⟨?_, depth_joinWith hv.2.1 hw.2.1 h, depth_joinWith hv.2.2 hw.2.2 h'⟩
    have h' := joinWith_cases h'
    rw [← hv.1.void_iff, ← hw.1.void_iff] at h'
    rcases joinWith_cases h with ⟨hvoid, rfl⟩ | ⟨hvoid, hwvoid, rfl⟩ | ⟨hvoid, hwvoid, h⟩ <;>
      rcases h' with ⟨hvoid', rfl⟩ | ⟨hvoid', hwvoid', rfl⟩ | ⟨hvoid', hwvoid',
        h'⟩ <;> try contradiction
    · exact hw.1
    · exact hv.1
    rcases hv.1.eq_or_lift hvoid with ⟨rfl, hva⟩ | ⟨a, a', rfl, rfl, ha⟩ <;>
      rcases hw.1.eq_or_lift hwvoid with ⟨rfl, hwa⟩ | ⟨b, b', rfl, rfl, hb⟩
    · rw [joinKinds_fuel (m := m) hva, h'] at h
      cases h
      exact alike_refl _
    · rw [joinKinds_array_right hva] at h h'
      cases h
      cases h'
      exact .top
    · rw [joinKinds_array hwa] at h h'
      cases h
      cases h'
      exact .top
    · obtain ⟨n, rfl⟩ : ∃ k, n = k + 1 :=
        exists_eq_succ_of_ne_zero fun hn => not_depth_array_le_zero a (hn ▸ hv.2.1)
      obtain ⟨m, rfl⟩ : ∃ k, m = k + 1 :=
        exists_eq_succ_of_ne_zero fun hm => not_depth_array_le_zero a' (hm ▸ hv.2.2)
      obtain ⟨c, hc, h⟩ := bind_eq_ok.1 h
      obtain ⟨c', hc', h'⟩ := bind_eq_ok.1 h'
      cases h
      cases h'
      have hda := depth_valueAt_le hv.2.1
      have hda' := depth_valueAt_le hv.2.2
      have hdb := depth_valueAt_le hw.2.1
      have hdb' := depth_valueAt_le hw.2.2
      have hla : Segmented.Lift (AlikeWith n m) a a' :=
        .of_valueAt ha.length ha.sameSplit? fun i => ⟨ha.valueAt i, hda i, hda' i⟩
      have hlb : Segmented.Lift (AlikeWith n m) b b' :=
        .of_valueAt hb.length hb.sameSplit? fun i => ⟨hb.valueAt i, hdb i, hdb' i⟩
      have hjoin := ih n (lt_succ_self n) m
      have hbottom : AlikeWith n m bottom bottom := ⟨alike_refl _, Nat.zero_le n, Nat.zero_le m⟩
      exact alike_array (combine_lift hla hlb hbottom hjoin
        (fun _ _ _ _ _ _ hv hw h h' => (hjoin hv hw h h').1) (combine_cases hc)
        (combine_cases hc'))

lemma alike_join (hv : Alike v v') (hw : Alike w w') (h : v.join w = .ok u)
    (h' : v'.join w' = .ok u') : Alike u u' :=
  (respects_joinWith _ _ ⟨hv, le_max_left _ _, le_max_left _ _⟩
    ⟨hw, le_max_right _ _, le_max_right _ _⟩ h h').1

/-! ## Joining in either order -/

lemma joinKinds_comm (hv : ¬ v.Void) (hw : ¬ w.Void) (h : v.isArray = false ∨ w.isArray = false) :
    joinKinds n v w = joinKinds n w v := by
  cases v <;> cases w
  case int.int a b =>
    have ha : a.isBottom = false := Bool.eq_false_iff.2 fun h => hv (.int h)
    have hb : b.isBottom = false := Bool.eq_false_iff.2 fun h => hw (.int h)
    rw [joinKinds, joinKinds, IntVal.join_comm ha hb]
  case addr.addr => rw [joinKinds, joinKinds, AddrSet.join_comm]
  case array.array => simp [isArray] at h
  all_goals rfl

lemma alike_joinWith_comm (n : Nat) : ∀ v w u u', joinWith n v w = .ok u →
    joinWith n w v = .ok u' → Alike u u' := by
  induction n using Nat.strongRecOn with
  | ind n ih =>
    intro v w u u' h h'
    rcases joinWith_cases h with ⟨hv, rfl⟩ | ⟨hv, hw, rfl⟩ | ⟨hv, hw, h⟩ <;>
      rcases joinWith_cases h' with ⟨hw', rfl⟩ | ⟨hw', hv', rfl⟩ | ⟨hw', hv', h'⟩ <;>
      try contradiction
    · exact .void hw' hv
    · exact alike_refl _
    · exact alike_refl _
    by_cases harray : v.isArray = false ∨ w.isArray = false
    · rw [joinKinds_comm hv hw harray, h'] at h
      cases h
      exact alike_refl _
    cases v <;> cases w <;> simp [isArray] at harray
    cases n with
    | zero =>
      cases h
      cases h'
      exact .top
    | succ n =>
      obtain ⟨c, hc, h⟩ := bind_eq_ok.1 h
      obtain ⟨c', hc', h'⟩ := bind_eq_ok.1 h'
      cases h
      cases h'
      have hjoin : Segmented.Respects Eq Eq (joinWith n) (joinWith n) := by
        rintro v w _ _ u u' rfl rfl h h'
        exact Except.ok.inj (h.symm.trans h')
      have hf : Segmented.Respects Eq Alike (joinWith n) fun v w => joinWith n w v := by
        rintro v w _ _ u u' rfl rfl h h'
        exact ih n (lt_succ_self n) v w u u' h h'
      exact alike_array (combine_lift (.refl fun _ => rfl) (.refl fun _ => rfl) rfl hjoin hf
        (combine_cases hc) (combine_cases hc').flip)

lemma alike_join_comm (h : v.join w = .ok u) (h' : w.join v = .ok u') : Alike u u' := by
  unfold join at h h'
  rw [max_comm] at h'
  exact alike_joinWith_comm _ v w u u' h h'

end Value
end StaticAnalysis
