import StaticAnalysis.Proofs.Transfer.Flatness
import StaticAnalysis.Solver.Evaluate

/-!
# Edges and equations keep states flat

Calls, starts of threads and whole edges map flat states to flat states, and so does the right-hand
side of every equation.  The entry states of a scalar program are flat.
-/

namespace StaticAnalysis

open Fault List SortedMap Value
namespace State

open Step

variable {env : Env} {s : State} {args : List Expr} {callee function : String}
  {reach : Option (SortedSet Cell)} {target : Option LValue} {a : Action} {g : Graph}
  {settings : Settings}
  {r : State}

/-! ## Calls -/

lemma Flat.filterCells (hs : s.Flat) (p : Cell → Value → Bool) :
    Flat { s with cells := s.cells.filter p } :=
  ⟨fun c v hv => hs.cells c v (get?_of_filter hv), hs.copies, hs.kept, hs.relation⟩

lemma flat_enter (henv : env.Scalar) (hs : s.Flat) (hargs : ∀ e ∈ args, e.isScalar) :
    (s.enter env callee args).KeepsFlat (fun r => r.1.Flat) := by
  unfold enter
  split
  · exact meets_pure flat_unreachable
  · refine ((invariance_flat henv).evalArgs hs hargs).bind fun values hvalues => ?_
    refine meets_lift_bind fun reach _ => ?_
    refine Meets.bind (Q := Flat) ?_ fun entry hentry => ?_
    · refine meets_foldlM (fun entry p _ hentry => ?_) (hs.filterCells _)
      refine (invariance_flat henv).bindParam
        ((invariance_flat henv).readLValue hs) hentry fun a ha => ?_
      have hmem := mem_of_getElem? ha
      exact ⟨hargs _ (of_mem_zip hmem).1, hvalues _ (of_mem_zip hmem).2⟩
    · rw [if_pos henv.relation]
      exact meets_pure ⟨hentry.cells, hentry.copies, hentry.kept, rfl⟩

lemma resyncRelation_eq (hs : s.Flat) : resyncRelation env reach s = .ok s := by
  simp [resyncRelation, hs.relation, Relation.vars]

section

variable (henv : env.Scalar) (hs : s.Flat)
include henv hs

lemma flat_combine {exit : State} (hexit : exit.Flat) (ht : target.all LValue.isScalar) :
    (s.combine env callee exit reach target).KeepsFlat Flat := by
  unfold combine
  split
  · exact meets_pure flat_unreachable
  extract_lets hidden kept cells
  have hcells : ScalarMap cells := by
    refine List.foldlRecOn (motive := ScalarMap) _ _ (hexit.filterCells _).cells
      fun m hm e he k v hv => ?_
    rcases get?_insert_cases hv with rfl | hv
    exacts [(hs.filterCells _).cells e.1 _ (get?_eq_some_iff.2 he), hm k v hv]
  have hnext : Flat { exit with relation := s.relation, cells } :=
    ⟨hcells, hexit.copies, hexit.kept, hs.relation⟩
  rw [resyncRelation_eq hnext]
  cases target with
  | none => exact meets_pure hnext
  | some lv => exact (invariance_flat henv).assignValue hnext (hexit.get _) ht

/-! ## Summaries -/

lemma flat_applySummary {summary : Summary} (hsum : summary.Flat)
    (hargs : ∀ e ∈ args, e.isScalar) (ht : target.all LValue.isScalar) :
    (s.applySummary env callee summary args target).KeepsFlat Flat := by
  refine ((invariance_flat henv).applySummary hs ⟨hsum.ret,
    hsum.writes⟩ hargs fun lv hlv => ?_).mono ?_
  · subst hlv
    exact ht
  · rintro r (rfl | hr)
    exacts [flat_unreachable, hr]

/-! ## Threads -/

lemma flat_spawn {arg : Option Expr} (harg : arg.all Expr.isScalar) :
    (s.spawn env function arg).KeepsFlat (fun r => r.2.1.Flat ∧ r.2.2.Flat) := by
  unfold spawn
  refine meets_lift_bind fun thread _ => ?_
  extract_lets initial start
  have hinitial : initial.Flat := by
    change (unknown env.settings.relation).Flat
    rw [henv.relation]
    exact flat_unknown
  have hstart : ∀ value : Option Value, (∀ v, value = some v → v.Scalar) →
      (start value).KeepsFlat (fun r => r.2.1.Flat ∧ r.2.2.Flat) := by
    intro value hvalue
    refine meets_lift_bind fun reach _ => ?_
    extract_lets s' rest
    have hrest : ∀ s : State, s.Flat →
        (rest s).KeepsFlat (fun r => r.2.1.Flat ∧ r.2.2.Flat) := by
      intro s hs
      have hs' : Flat { s with created := s.created.insert thread } :=
        ⟨hs.cells, hs.copies, hs.kept, hs.relation⟩
      have hnew : Flat { initial with multithreaded := true, escaped := s.escaped } :=
        ⟨hinitial.cells, hinitial.copies, hinitial.kept, hinitial.relation⟩
      dsimp -zeta only [rest]
      extract_lets s'' new
      split
      next =>
        exact meets_lift_bind fun r hr => meets_pure ⟨hs', flat_set hnew (hvalue _ rfl) hr⟩
      next => exact meets_pure ⟨hs', hnew⟩
    have hs' : s'.Flat := flat_escape hs _ _
    split
    · exact ((upkeep_flat henv).announcePending hs').bind hrest
    · exact ((upkeep_flat henv).announceGlobals hs').bind fun s hs => hrest s hs.1
  cases arg with
  | none => exact hstart none (by simp)
  | some e =>
    refine Meets.bind (Q := fun o : Option Value => ∀ v, o = some v → v.Scalar) ?_ hstart
    exact ((invariance_flat henv).eval hs e harg).map fun v hv u hu => by cases hu; exact hv

/-! ## Edges -/

lemma flat_step (ha : a.isScalar) : (s.step env a).KeepsFlat Flat := by
  refine (invariance_flat henv).step hs ?_
  cases a with
  | assign lv e => exact Bool.and_eq_true_iff.1 ha
  | ret e =>
    cases e with
    | none => trivial
    | some e => exact ha
  | _ => first | exact ha | trivial

end

/-! ## Start states -/

lemma scalar_staticValue {init : List (List String × Int)} {ty : Ty} {path : List String}
    (hinit : ∀ i ∈ init, Word.fits i.2) (hty : ty.isArray = false) :
    (staticValue init ty path).Scalar := by
  unfold staticValue
  split
  next n h =>
    split
    · trivial
    · exact scalar_ofInt (hinit _ (mem_of_find?_eq_some h))
  next =>
    cases ty with
    | int => exact scalar_ofInt (by decide)
    | array t n => cases hty
    | _ => trivial

lemma flat_initial (hg : g.Scalar) (hrel : settings.relation = .none)
    (h : initial g settings = .ok r) : r.Flat := by
  unfold initial at h
  rw [hrel] at h
  refine foldlM_induct (fun s e t he hs h => ?_) flat_unknown h
  obtain ⟨name, global⟩ := e
  have hglobal := get?_eq_some_iff.2 he
  refine foldlM_induct (fun s path t hpath hs h => ?_) hs h
  exact flat_set hs (scalar_staticValue (hg.init name global hglobal)
    (hg.part name global hglobal path hpath)) h

lemma flat_modularEntry (hrel : settings.relation = .none)
    (h : modularEntry g settings function = .ok r) : r.Flat := by
  unfold modularEntry at h
  split at h
  · cases h
    exact flat_unreachable
  rw [hrel] at h
  refine foldlM_induct (fun s param t _ hs h => ?_) flat_unknown h
  dsimp only at h
  split at h
  · exact flat_set hs (scalar_addr _) h
  · refine foldlM_induct (fun s path t _ hs h => ?_) hs h
    refine flat_set hs ?_ h
    split <;> trivial
  · exact flat_set hs scalar_top h

end State

open Step State

variable {g : Graph} {settings : Settings}

variable {function callee : String} {context : Context} {s : State} {env : Env} {args : List Expr}
  {target : Option LValue} {reach : Option (SortedSet Cell)}

lemma fits_state (h : s.Flat) : (GlobalKey.entry function context).Fits (.state s) :=
  ⟨h, by simp [GlobalValue.kind?, GlobalKey.kind]⟩

lemma flat_transferModular (henv : env.Scalar) (hs : s.Flat) (hargs : ∀ e ∈ args, e.isScalar)
    (ht : target.all LValue.isScalar) :
    (transferModular env s target callee args).KeepsFlat Flat := by
  unfold transferModular
  refine meets_lift_bind fun entry hentry => ?_
  refine (meets_contribute (fits_state (flat_modularEntry henv.relation hentry))).bind fun _ _ => ?_
  refine meets_lookup.bind fun x hx => ?_
  refine flat_applySummary henv hs ?_ hargs ht
  split
  exacts [hx.flat, Summary.flat_bottom]

lemma combine_of_unreachable {exit : State} (h : exit.reachable = false) :
    s.combine env callee exit reach target = pure unreachable := by
  simp [combine, h]

section

variable (henv : env.Scalar) (hs : s.Flat)
include henv hs

lemma flat_return (ht : target.all LValue.isScalar) : ((do
      let exit ← Shared.exitState env.graph callee context
      s.combine env callee exit reach target) : Step State).KeepsFlat Flat := by
  unfold Shared.exitState
  split
  · rw [bind_assoc]
    refine meets_stateAt ?_ fun o ho => ?_
    · rintro _ _ ⟨u, -, hu, rfl, rfl⟩
      exact (combine_of_unreachable hu).trans (combine_of_unreachable rfl).symm
    · refine flat_combine henv hs ?_ ht
      cases o with
      | none => exact flat_unreachable
      | some t => exact ho t rfl
  · exact flat_combine henv hs flat_unreachable ht

lemma flat_transferCall (hargs : ∀ e ∈ args, e.isScalar) (ht : target.all LValue.isScalar) :
    (transferCall env context s target callee args).KeepsFlat Flat := by
  unfold transferCall
  refine meets_lift_bind fun inner _ => ?_
  refine (flat_enter henv hs hargs).bind fun r hr => ?_
  obtain ⟨entry, reach⟩ := r
  dsimp only
  split
  · exact meets_pure flat_unreachable
  exact (meets_contribute (fits_state hr)).bind fun _ _ => flat_return henv hs ht

lemma flat_transferSpawn {arg : Option Expr}
    (harg : arg.all Expr.isScalar) : (transferSpawn env s function arg).KeepsFlat Flat := by
  unfold transferSpawn
  refine (flat_spawn henv hs harg).bind fun r hr => ?_
  exact (meets_contribute (fits_state hr.2)).bind fun _ _ => meets_pure hr.1

end

lemma flat_transfer (hg : g.Scalar) (hrel : settings.relation = .none) {id : Nat} {e : Edge}
    (he : e ∈ g.edges.toList) (hs : s.Flat) :
    (transfer g settings function context id e s).KeepsFlat Flat := by
  have ha := hg.action e he
  unfold transfer
  split
  · exact meets_pure flat_unreachable
  extract_lets env
  have henv : env.Scalar := ⟨hrel, hg⟩
  split
  next heq =>
    rw [heq] at ha
    simp only [Action.isScalar, Bool.and_eq_true, all_eq_true] at ha
    split
    exacts [flat_transferModular henv hs ha.2 ha.1, flat_transferCall henv hs ha.2 ha.1]
  next heq =>
    rw [heq] at ha
    exact flat_transferSpawn henv hs ha
  next => exact flat_step henv hs ha

/-! ## Equations -/

lemma flat_entryState {p : Point} : (entryState g function p).KeepsFlat Flat := by
  unfold entryState
  split
  · refine meets_lookup.bind fun x hx => ?_
    split
    exacts [meets_pure hx.flat, meets_pure flat_unreachable]
  · exact meets_pure flat_unreachable

lemma flat_evaluate (hg : g.Scalar) (hrel : settings.relation = .none) (p : Point) :
    (evaluate g settings p).KeepsFlat Flat := by
  unfold evaluate
  refine meets_lift_bind fun function _ => ?_
  refine flat_entryState.bind fun entry hentry => ?_
  refine Meets.bind (Q := Flat) ?_ fun s hs => ?_
  · refine meets_foldlM (fun acc ie hmem hacc => meets_stateAt ?_ fun o ho => ?_) hentry
    · rintro _ _ ⟨u, hu, hr, rfl, rfl⟩
      simp [hu.isBottom_eq, hr]
    cases o with
    | none => exact meets_pure hacc
    | some before =>
      dsimp only
      split
      · exact meets_pure hacc
      refine (flat_transfer hg hrel (Graph.mem_edges_of_edgesInto hmem) (ho before rfl)).bind
        fun t ht => ?_
      exact meets_lift fun r hr => flat_join hacc ht hr
  · split
    · refine (meets_contribute (fits_summary (Summary.flat_ofReturn (hs.get _)))).bind fun _ _ => ?_
      exact meets_pure hs
    · exact meets_pure hs

end StaticAnalysis
