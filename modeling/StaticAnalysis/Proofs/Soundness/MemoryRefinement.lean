import StaticAnalysis.Proofs.Soundness.MemoryEvaluation
import StaticAnalysis.Proofs.Soundness.Refinement

/-!
# Conditions as constraints in memories with pointers

Restricting a state to the runs in which a condition holds loses no memory in which it holds.  The
targets of pointers are intersected where two pointers are equal, and a value is refined only in a
cell that stands for one object; so here, too, everything rests on variables that are the names of
one object each.
-/

namespace StaticAnalysis

open Fault Memory Value
namespace State

open Step

variable {ω : Type} {C : Contract} {m : Memory ω} {vars : String → ω} {env : Env} {s : State}
  {d d' : Datum ω}

/-! ## Designators and addresses -/

section

variable (henv : env.Whole) (hm : m.Hosts env.graph env.function vars) (hs : s.Plain)
include henv hm hs

lemma restricts_refineLValue {lv : LValue} (hlv : lv.isScalar) {w : Value} (hw : w.Scalar) :
    (s.refineLValue env lv w).Meets C
      ((m.reading vars).Restricts s (∃ d, (Expr.read lv).Computes m vars d ∧ m.Admits w d)) := by
  refine (Reading.locates_resolve (evaluates_memory henv hm) hs lv hlv).bind
    fun places hplaces => ?_
  split
  next p =>
    split
    · exact meets_pure (.refl hs)
    next hplace =>
      have hbase : p.cell.base.isUnique = true := by
        simp only [Bool.or_eq_true, Bool.not_eq_true', not_or, Bool.not_eq_false] at hplace
        exact hplace.2
      rw [loadCell_eq henv hs, pure_bind]
      have hold := hs.flat.get p.cell
      refine meets_lift_bind ?_
      rintro (_ | u) hu
      · exact meets_pure (.refl hs)
      have hscalar := scalar_meetTarget hold hw hu u rfl
      -- The place is all that the designator may denote.
      have hdenoted : s.Depicts m → ∀ {d}, (Expr.read lv).Computes m vars d → m.Admits w d →
          ∃ o path, p.cell = m.cell o path ∧ m.content o path = some d ∧ m.Admits u d := by
        rintro hd d ⟨⟨o, path, hdenotes, hcontent⟩, -⟩ hwd
        have hmem := List.mem_singleton.1 (hplaces.mem hd o path hdenotes _ rfl)
        refine ⟨o, path, congrArg Place.cell hmem.symm, hcontent, ?_⟩
        refine .meetTarget hold hw ?_ hwd hu
        rw [← congrArg Place.cell hmem]
        exact hd.cells o path d hcontent
      refine meets_lift_bind fun b hb => ?_
      rw [isBottom_eq hscalar] at hb
      cases hb
      split
      next hvoid =>
        refine meets_pure ⟨hs.stop, ?_⟩
        rintro hd ⟨d, hcomputes, hwd⟩
        obtain ⟨o, path, -, -, hud⟩ := hdenoted hd hcomputes hwd
        simp [hud.isVoid] at hvoid
      next =>
        refine meets_lift fun r hr => ?_
        have hset := set_of_refineCell henv hs hr
        refine ⟨hs.set hscalar hset, ?_⟩
        rintro hd ⟨d, hcomputes, hwd⟩
        obtain ⟨o, path, hcell, hcontent, hud⟩ := hdenoted hd hcomputes hwd
        rw [hcell] at hset
        exact hd.refine hm.distinct (hcell ▸ hbase) hcontent hud hset
  next => exact meets_pure (.refl hs)

lemma restricts_refineAddr {e : Expr} (he : e.isScalar) {a : AddrSet} :
    (s.refineAddr env e a).Meets C
      ((m.reading vars).Restricts s (∃ d, e.Computes m vars d ∧ m.Admits (.addr a) d)) := by
  unfold refineAddr
  split
  next hbottom =>
    refine meets_pure ⟨hs.stop, ?_⟩
    rintro - ⟨d, -, hd⟩
    have : a.isBottom = false := hd.isVoid
    simp [this] at hbottom
  split
  · exact restricts_refineLValue henv hm hs he trivial
  · exact meets_pure (.refl hs)

lemma restricts_refineAddrs {op : CmpOp} {a b : Expr} (ha : a.isScalar) (hb : b.isScalar)
    {x y : AddrSet}
    (hx : s.Depicts m → ∀ d, a.Computes m vars d → m.Admits (.addr x) d)
    (hy : s.Depicts m → ∀ d, b.Computes m vars d → m.Admits (.addr y) d) :
    (s.refineAddrs env op a b x y).Meets C
      ((m.reading vars).Restricts s ((Cond.cmp op a b).Results m vars true)) := by
  cases op with
  | eq =>
    refine (restricts_refineAddr henv hm hs ha).bind fun r hr => ?_
    refine (restricts_refineAddr henv hm hr.mem hb).mono fun t ht => hr.seq ht ?_
    rintro hd ⟨d, d', hda, hdb, hop⟩
    cases hop.1 rfl
    exact ⟨⟨d, hda, (hx hd d hda).meet (hy hd d hdb)⟩, ⟨d, hdb, (hy hd d hdb).meet (hx hd d hda)⟩⟩
  | ne =>
    have hnull : ∀ {d : Datum ω}, m.Admits (.addr .null) d → d = .number 0 := by
      intro d hd
      obtain ⟨hd, -⟩ | ⟨o, path, -, hmem⟩ := admits_targets.1 hd
      · exact hd
      · cases SortedSet.mem_singleton.1 hmem
    unfold refineAddrs
    dsimp only
    split
    next hy₀ =>
      refine (restricts_refineAddr henv hm hs ha).mono fun r hr => hr.imp ?_
      rintro hd ⟨d, d', hda, hdb, hop⟩
      have hd' := hnull (hy₀ ▸ hy hd d' hdb)
      exact ⟨d, hda, (hx hd d hda).withoutNull (hd' ▸ hop.1 rfl)⟩
    split
    next hx₀ =>
      refine (restricts_refineAddr henv hm hs hb).mono fun r hr => hr.imp ?_
      rintro hd ⟨d, d', hda, hdb, hop⟩
      have hd₀ := hnull (hx₀ ▸ hx hd d hda)
      exact ⟨d', hdb, (hy hd d' hdb).withoutNull (hd₀ ▸ (hop.1 rfl).symm)⟩
    · exact meets_pure (.refl hs)
  | _ => exact meets_pure (.refl hs)

end

/-! ## Targets -/

lemma admits_comparisonTargets {op : CmpOp} {x y : IntVal} (hx : x.Tight) (hy : y.Tight)
    (hd : m.Admits (.int x) d) (hd' : m.Admits (.int y) d')
    (hfits : ∀ n, d = .number n → Word.fits n)
    (hfits' : ∀ n, d' = .number n → Word.fits n)
    (hop : op.Compares d d' true) {r : IntVal × IntVal} (h : comparisonTargets op x y = .ok r) :
    m.Admits (.int r.1) d ∧ m.Admits (.int r.2) d' := by
  cases op with
  | eq =>
    obtain ⟨p, hp, h⟩ := bind_eq_ok.1 h
    obtain ⟨q, hq, h⟩ := bind_eq_ok.1 h
    cases h
    cases hop.1 rfl
    exact ⟨.meet_int hx hy hp hd hd', .meet_int hy hx hq hd' hd⟩
  | ne =>
    obtain ⟨p, hp, h⟩ := bind_eq_ok.1 h
    obtain ⟨q, hq, h⟩ := bind_eq_ok.1 h
    cases h
    have hne : d ≠ d' := hop.1 rfl
    exact ⟨hd.restrictNe hx hd' hne hfits hp, hd'.restrictNe hy hd hne.symm hfits' hq⟩
  | _ =>
    cases d <;> cases d' <;> try exact absurd hop id
    rw [admits_number] at hd hd' ⊢
    rw [admits_number]
    exact contains_comparisonTargets hx.wellFormed hy.wellFormed hd hd' (hfits _ rfl)
      (hfits' _ rfl) hop h

lemma refines_memory (henv : env.Whole) (hm : m.Hosts env.graph env.function vars) :
    (m.reading vars).Refines C env where
  eval := Reading.gives_eval (evaluates_memory henv hm)
  evalCond := Reading.judges_evalCond (evaluates_memory henv hm)
  stop h := h.stop
  join hs ht h := by
    obtain ⟨hr, hsr, htr⟩ := upperBound_join hs.flat ht.flat h
    exact ⟨hs.join ht h, fun hd => hd.elim (·.le hs.flat hr hsr) (·.le ht.flat hr htr)⟩
  isBottom hs hd := by simp [hs.flat.isBottom_eq, hd.reachable]
  tight h := h
  dividends ht hbottom hr h := tight_dividends (ht.wellFormed.fits_constant? hbottom hr) h
  comparison hx hy := tight_comparisonTargets (tight_toInt hx) (tight_toInt hy)
  hits hx hy h := by
    rintro hd ⟨d, d', hda, hdb, hop⟩
    have hadmits := admits_comparisonTargets (tight_toInt hx.mem) (tight_toInt hy.mem)
      (hx.has hd d hda).toInt (hy.has hd d' hdb).toInt (fun n hn => (hn ▸ hda).admissible.1)
      (fun n hn => (hn ▸ hdb).admissible.1) hop h
    exact ⟨⟨d, hda, hadmits.1⟩, ⟨d', hdb, hadmits.2⟩⟩
  lvalue hs he ht := restricts_refineLValue henv hm hs he (w := .int _) ht
  addrs hs ha hb hx hy _ := restricts_refineAddrs henv hm hs ha hb
    (fun hd d hda => (hx.has hd d hda).toAddr) fun hd d hdb => (hy.has hd d hdb).toAddr
  relation hs h := by
    cases (guardRelation_eq hs.flat).symm.trans h
    exact .refl hs

end State
end StaticAnalysis
