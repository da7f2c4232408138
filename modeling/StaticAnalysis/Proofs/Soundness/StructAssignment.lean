import StaticAnalysis.Proofs.Soundness.AccessPaths

/-!
# Assignment of structs

A struct is assigned field by field, and both designators are resolved again for each field.  That
is the assignment of all fields at once if the designators keep denoting the same objects while the
fields are copied, and no field is overwritten before it is read.  After the first field of
`a = *a.next` was copied, `a.next` points elsewhere, and the other fields are copied from there.
-/

namespace StaticAnalysis

open List SortedMap Value

/-! ## Scalar fields -/

namespace Graph

/-- The fields of a struct have different names, and structs in structs are declared. -/
structure StructsDeclared (g : Graph) : Prop where
  distinct : ∀ name fields, g.fields? name = some fields → (fields.map VarDecl.name).Nodup
  nested : ∀ name fields, g.fields? name = some fields → ∀ d ∈ fields, ∀ inner,
    d.ty = .struct inner → (g.fields? inner).isSome = true

variable {g : Graph}

lemma StructsDeclared.fieldType? (hg : g.StructsDeclared) {name : String} {fields : List VarDecl}
    (hfields : g.fields? name = some fields) {d : VarDecl} (hd : d ∈ fields) :
    g.fieldType? name d.name = some d.ty := by
  have hdistinct := hg.distinct name fields hfields
  have hfind : fields.find? (·.name == d.name) = some d := by
    clear hfields
    induction fields with
    | nil => cases hd
    | cons e fields ih =>
      rw [map_cons, nodup_cons] at hdistinct
      rcases mem_cons.1 hd with rfl | hd
      · simp
      · have hne : e.name ≠ d.name := fun h => hdistinct.1 (h ▸ mem_map_of_mem hd)
        rw [find?_cons_of_neg (by simpa using hne)]
        exact ih hd hdistinct.2
  simp [Graph.fieldType?, hfields, hfind]

lemma ne_nil_of_mem_scalarPaths {name : String} {fields : List VarDecl}
    (hfields : g.fields? name = some fields) {q : List String}
    (hq : q ∈ g.scalarPaths (.struct name)) :
    q ≠ [] := by
  rw [scalarPaths, nesting, scalarPathsWithin, hfields] at hq
  obtain ⟨d, -, hq⟩ := mem_flatMap.1 hq
  obtain ⟨q', -, rfl⟩ := mem_map.1 hq
  exact cons_ne_nil _ _

end Graph

/-! ## Copies -/

namespace Memory

variable {ω : Type} [DecidableEq ω]

/-- Copy the parts at some paths of one object to those of another, all at once. -/
def copy (m : Memory ω) (o : ω) (path : List String) (p : ω) (path' : List String)
    (qs : List (List String)) : Memory ω where
  base := m.base
  content o' part :=
    if o' = o ∧ part ∈ qs.map (path ++ ·) then m.content p (path' ++ part.drop path.length)
    else m.content o' part

variable {m : Memory ω} {o p : ω} {path path' : List String}

lemma writes_copy {qs : List (List String)} {q : List String} {d : Datum ω}
    (hd : m.content p (path' ++ q) = some d) :
    (m.copy o path p path' qs).Writes o (path ++ q) d (m.copy o path p path' (qs ++ [q])) where
  base := rfl
  written := by simp [copy, hd]
  other o' part hne := by
    have hmem : (o' = o ∧ part ∈ (qs ++ [q]).map (path ++ ·)) ↔ o' = o ∧
        part ∈ qs.map (path ++ ·) := by
      refine and_congr_right fun ho => ?_
      have hpart : part ≠ path ++ q := fun h => hne ⟨ho, h⟩
      simp [hpart]
    simp only [copy, hmem]

/-- While the parts at some paths are copied one after the other, two designators keep denoting the
same parts of objects, and each scalar is still there when its turn comes. -/
def Undisturbed (m : Memory ω) (vars : String → ω) (lv r : LValue) (o : ω) (path : List String)
    (p : ω) (path' : List String) (paths : List (List String)) : Prop :=
  ∀ done q, done ++ [q] <+: paths →
    lv.Denotes (m.copy o path p path' done) vars o path ∧
      r.Denotes (m.copy o path p path' done) vars p path' ∧
      (m.copy o path p path' done).content p (path' ++ q) = m.content p (path' ++ q)

end Memory

/-! ## Assignments -/

lemma Step.foldlM_flatMap {α β σ : Type} {f : σ → β → Step σ} {g : σ → α → Step σ} {k : α → List β}
    {l : List α} (h : ∀ a ∈ l, ∀ s, g s a = (k a).foldlM f s) (s : σ) :
    l.foldlM g s = (l.flatMap k).foldlM f s := by
  induction l generalizing s with
  | nil => rfl
  | cons a l ih =>
    obtain ⟨ha, hl⟩ := forall_mem_cons.1 h
    rw [foldlM_cons, flatMap_cons, foldlM_append, ha]
    exact bind_congr fun s => ih hl s

namespace State

open Step

def assignPart (env : Env) (lv r : LValue) (s : State) (q : List String) : Step State :=
  s.assignScalar env (q.foldl .field lv) (.read (q.foldl .field r))

lemma assignWithin_eq {env : Env} (hg : env.graph.StructsDeclared) (depth : Nat) {lv r : LValue}
    {ty : Ty} (htype : env.lvalueType? lv = some ty)
    (hdeclared : ∀ name, ty = .struct name → (env.graph.fields? name).isSome) (s : State) :
    assignWithin env depth s lv (.read r) =
      (env.graph.scalarPathsWithin depth ty).foldlM (assignPart env lv r) s := by
  induction depth generalizing lv r ty s with
  | zero => simp [assignWithin, Graph.scalarPathsWithin, assignPart]
  | succ depth ih =>
    unfold assignWithin
    cases ty with
    | struct name =>
      obtain ⟨fields, hfields⟩ := Option.isSome_iff_exists.1 (hdeclared name rfl)
      simp only [htype, Graph.scalarPathsWithin, hfields, Option.getD_some]
      refine Step.foldlM_flatMap (fun d hd s => ?_) s
      have hfield : env.lvalueType? (.field lv d.name) = some d.ty := by
        rw [Env.lvalueType?, htype]
        exact hg.fieldType? hfields hd
      rw [foldlM_map]
      exact ih hfield (hg.nested name fields hfields d hd) s
    | _ => simp [htype, Graph.scalarPathsWithin, assignPart]

variable {ω : Type} {m : Memory ω} {vars : String → ω} {env : Env} {s t : State}
  {lv r : LValue} {o p : ω} {path path' : List String} {name : String}

lemma depicts_assignPart {m' : Memory ω} {q : List String} {d : Datum ω}
    (hm : m.Hosts env.graph env.function vars) (hs : s.Serial env) (hd : s.Depicts m)
    (hltype : env.lvalueType? lv = some (.struct name))
    (hrtype : env.lvalueType? r = some (.struct name))
    (hlv : lv.Denotes m vars o path) (hr : r.Denotes m vars p path') (hq : q ≠ [])
    (hcontent : m.content p (path' ++ q) = some d) (hscalar : d.isArray = false)
    (harray : (s.get (m.cell o (path ++ q))).isArray = false)
    (hwrite : m.Writes o (path ++ q) d m') :
    (s.assignPart env lv r q).Meets .free fun t => t.Serial env ∧ Follows env s t ∧
      t.Depicts m' := by
  have htarget := locates_resolve hs hd hm lv hltype hlv
  have hsource := locates_resolve hs hd hm r hrtype hr
  obtain ⟨outer, f, rfl⟩ : ∃ outer f, q = outer ++ [f] :=
    ⟨q.dropLast, q.getLast hq, (dropLast_append_getLast hq).symm⟩
  rw [← append_assoc] at hcontent harray hwrite
  rw [assignPart, foldl_append, foldl_append]
  exact depicts_assignField hm.distinct hs hd (locates_fields htarget outer)
    (locates_fields hsource outer) hcontent hscalar harray hwrite

/-- What is depicted goes along with the loop over the scalars: those that are done were copied, the
others are as they were. -/
lemma depicts_assignParts [DecidableEq ω] {paths : List (List String)} (hne : ∀ q ∈ paths, q ≠ [])
    (hltype : env.lvalueType? lv = some (.struct name))
    (hrtype : env.lvalueType? r = some (.struct name))
    (hs : s.Serial env) (hd : s.Depicts m) (hm : m.Hosts env.graph env.function vars)
    (hscalars : ∀ q ∈ paths, (∃ d, m.content p (path' ++ q) = some d ∧ d.isArray = false) ∧
      (s.get (m.cell o (path ++ q))).isArray = false)
    (hsteady : m.Undisturbed vars lv r o path p path' paths) :
    (paths.foldlM (assignPart env lv r) s).Meets .free fun t =>
      Follows env s t ∧ t.Depicts (m.copy o path p path' paths) := by
  refine (meets_foldlM_rest (I := fun rest (t : State) => ∃ done, done ++ rest = paths ∧
    t.Serial env ∧ Follows env s t ∧ t.Depicts (m.copy o path p path' done)) ?_
    ⟨[], rfl, hs, .refl env s, ?_⟩).mono ?_
  · rintro q rest t hq ⟨done, hpaths, ht, hfollows, htd⟩
    have hprefix : done ++ [q] ++ rest = paths := by simpa using hpaths
    obtain ⟨⟨d, hcontent, hscalar⟩, harray⟩ := hscalars q hq
    obtain ⟨hlv, hr, hkept⟩ := hsteady done q ⟨rest, hprefix⟩
    have hhosts : (m.copy o path p path' done).Hosts env.graph env.function vars :=
      ⟨hm.distinct, hm.names⟩
    refine (depicts_assignPart hhosts ht htd hltype hrtype hlv hr (hne q hq) (hkept.trans hcontent)
      hscalar (hfollows.arrays _ harray) (Memory.writes_copy hcontent)).mono ?_
    rintro u ⟨hu, hfollows', hud⟩
    exact ⟨done ++ [q], hprefix, hu, hfollows.trans hfollows', hud⟩
  · simpa [Memory.copy] using hd
  · rintro t ⟨done, hpaths, -, hfollows, htd⟩
    rw [append_nil] at hpaths
    exact ⟨hfollows, hpaths ▸ htd⟩

/-- The assignment of a struct copies its scalars all at once: if a state depicts a memory, the
state after the assignment depicts the memory after the copy.  The designators must not be disturbed
while the scalars are copied.  Relations are kept unless a store went through a pointer to
anywhere. -/
theorem struct_assignment_copies [DecidableEq ω] {ς : Type} [SharedStore ς] {σ σ' : ς}
    {fields : List VarDecl} (hg : env.graph.StructsDeclared)
    (hfields : env.graph.fields? name = some fields)
    (hltype : env.lvalueType? lv = some (.struct name))
    (hrtype : env.lvalueType? r = some (.struct name))
    (hs : s.Serial env) (hd : s.Depicts m) (hm : m.Hosts env.graph env.function vars)
    (hscalars : ∀ q ∈ env.graph.scalarPaths (.struct name),
      (∃ d, m.content p (path' ++ q) = some d ∧ d.isArray = false) ∧
        (s.get (m.cell o (path ++ q))).isArray = false)
    (hsteady : m.Undisturbed vars lv r o path p path' (env.graph.scalarPaths (.struct name)))
    (hrun : (s.assign env lv (.read r)).run σ = .ok t σ') :
    t.Depicts (m.copy o path p path' (env.graph.scalarPaths (.struct name))) ∧
      (t.relation = s.relation ∨ t.relation = .unconstrained env.settings.relation) := by
  have hdeclared : ∀ inner, Ty.struct name = .struct inner →
      (env.graph.fields? inner).isSome = true := by
    rintro inner ⟨⟩
    simp [hfields]
  rw [assign, assignWithin_eq hg _ hltype hdeclared] at hrun
  have hne : ∀ q ∈ env.graph.scalarPaths (.struct name), q ≠ [] :=
    fun q hq => Graph.ne_nil_of_mem_scalarPaths hfields hq
  obtain ⟨hfollows, htd⟩ :=
    (depicts_assignParts hne hltype hrtype hs hd hm hscalars hsteady).run hrun
  exact ⟨htd, hfollows.relation⟩

/-! ## A list whose first node is overwritten by the second -/

def nextField : VarDecl := ⟨"next", .ptr (.struct "node")⟩

def numberField : VarDecl := ⟨"number", .int⟩

variable (fields : List VarDecl)

/-- A function with three nodes, whose fields are declared in a given order. -/
def withNodes : Env where
  graph := {
    functions := .singleton "main" ⟨"main", [], ["a", "b", "c"].map (⟨·, .struct "node"⟩), 0, 0⟩
    structs := .singleton "node" fields }
  settings := {}
  function := "main"
  thread := .main
  edge := 0
  modular := false

def nodeAfterA : LValue := .deref (.read (.field (.var "a") "next"))

/-- The node `a` points to `b`, and `b` to `c`. -/
def threeNodes : Memory String where
  base x := .localVar "main" x
  content x path :=
    match x, path with
    | "a", ["next"] => some (.pointer "b" [])
    | "b", ["next"] => some (.pointer "c" [])
    | "b", ["number"] => some (.number 1)
    | "c", ["number"] => some (.number 2)
    | _, _ => none

/-- The same, as the analysis sees it. -/
def threeNodesState : State :=
  { unknown .none with
    cells := .ofList [
      (⟨.localVar "main" "a", ["next"]⟩, .addr (.cell (.ofLocal "main" "b"))),
      (⟨.localVar "main" "b", ["next"]⟩, .addr (.cell (.ofLocal "main" "c"))),
      (⟨.localVar "main" "b", ["number"]⟩, .ofInt 1),
      (⟨.localVar "main" "c", ["number"]⟩, .ofInt 2)] }

lemma depicts_threeNodes : threeNodesState.Depicts threeNodes := by
  refine ⟨rfl, fun x path d hd => ?_⟩
  simp only [threeNodes] at hd
  split at hd
  · cases hd
    exact .inl (.target (SortedSet.mem_singleton.2 rfl))
  · cases hd
    exact .inl (.target (SortedSet.mem_singleton.2 rfl))
  · cases hd
    exact .inl (.int (by decide))
  · cases hd
    exact .inl (.int (by decide))
  · cases hd

lemma serial_threeNodes : threeNodesState.Serial (withNodes fields) := by
  have hscalar : ∀ c, (threeNodesState.get c).Scalar := by
    intro c
    rw [State.get, getD_eq]
    cases hv : threeNodesState.cells.get? c with
    | none => trivial
    | some v =>
      have hmem := mem_of_get?_ofList hv
      simp only [mem_cons, Prod.mk.injEq, not_mem_nil, or_false] at hmem
      rcases hmem with ⟨-, rfl⟩ | ⟨-, rfl⟩ | ⟨-, rfl⟩ | ⟨-, rfl⟩
      exacts [trivial, trivial, scalar_ofInt (by decide), scalar_ofInt (by decide)]
  refine ⟨rfl, fun c hc => ?_, fun c i hi => ?_, fun c hc => ?_⟩
  · simp [ofCaller, withNodes] at hc
  · have := hscalar c
    rw [hi] at this
    exact this.wellFormed
  · simp [isArray_eq (hscalar c)] at hc

lemma hosts_threeNodes :
    threeNodes.Hosts (withNodes fields).graph (withNodes fields).function id where
  distinct x y h _ := by
    cases h
    rfl
  names x := by
    have hglobal : (withNodes fields).graph.isGlobal x = false := by
      simp [withNodes, Graph.isGlobal, SortedMap.contains]
    simp [Graph.variableCell, Graph.isLocalIn, hglobal]
    rfl

lemma structsDeclared_withNodes : (withNodes [numberField, nextField]).graph.StructsDeclared := by
  have hfields : ∀ name fields, (withNodes [numberField, nextField]).graph.fields? name =
      some fields → fields = [numberField, nextField] := by
    intro name fields h
    rw [Graph.fields?, withNodes, get?_singleton] at h
    split at h
    · cases h
      rfl
    · cases h
  refine ⟨fun name fields h => ?_, fun name fields h d hd inner hinner => ?_⟩
  · rw [hfields name fields h]
    decide
  · rw [hfields name fields h] at hd
    rcases mem_pair.1 hd with rfl | rfl <;> cases hinner

/-- The pointer in `a` leads to `b` until it is copied itself. -/
lemma undisturbed_threeNodes :
    threeNodes.Undisturbed id (.var "a") nodeAfterA "a" [] "b" [] [["number"], ["next"]] := by
  have hdenotes : ∀ m : Memory String, m.content "a" ["next"] = some (.pointer "b" []) →
      nodeAfterA.Denotes m id "b" [] :=
    fun m hm => ⟨⟨"a", ["next"], ⟨[], ⟨rfl, rfl⟩, rfl⟩, hm⟩, trivial⟩
  rintro (_ | ⟨q₁, _ | ⟨q₂, done⟩⟩) q hprefix
  · obtain ⟨rest, h⟩ := hprefix
    cases h
    exact ⟨⟨rfl, rfl⟩, hdenotes _ rfl, rfl⟩
  · obtain ⟨rest, h⟩ := hprefix
    cases h
    exact ⟨⟨rfl, rfl⟩, hdenotes _ rfl, rfl⟩
  · simpa using hprefix.length_le

/-- If the number comes first, the pointer that leads to the second node is copied last, and the
first node becomes the second. -/
theorem struct_assignment_copies_threeNodes :
    ∃ t, (threeNodesState.assign (withNodes [numberField, nextField]) (.var "a")
        (.read nodeAfterA)).run (.empty : GlobalMap) = .ok t .empty ∧
      t.Depicts (threeNodes.copy "a" [] "b" [] [["number"], ["next"]]) := by
  have hpaths : (withNodes [numberField, nextField]).graph.scalarPaths (.struct "node") =
      [["number"], ["next"]] := rfl
  obtain ⟨t, ht⟩ : ∃ t, (threeNodesState.assign (withNodes [numberField, nextField]) (.var "a")
      (.read nodeAfterA)).run (.empty : GlobalMap) = .ok t .empty := ⟨_, rfl⟩
  refine ⟨t, ht, hpaths ▸ (struct_assignment_copies structsDeclared_withNodes rfl rfl rfl
    (serial_threeNodes _) depicts_threeNodes (hosts_threeNodes _) (fun q hq => ?_)
    (hpaths ▸ undisturbed_threeNodes) ht).1⟩
  rw [hpaths] at hq
  rcases List.mem_pair.1 hq with rfl | rfl
  exacts [⟨⟨.number 1, rfl, rfl⟩, rfl⟩, ⟨⟨.pointer "c" [], rfl, rfl⟩, rfl⟩]

/-- If the pointer comes first, the number is copied from the third node. -/
theorem struct_assignment_disturbed :
    threeNodesState.Serial (withNodes [nextField, numberField]) ∧
      threeNodesState.Depicts threeNodes ∧ nodeAfterA.Denotes threeNodes id "b" [] ∧
      ∃ t, (threeNodesState.assign (withNodes [nextField, numberField]) (.var "a")
          (.read nodeAfterA)).run (.empty : GlobalMap) = .ok t .empty ∧
        ¬ t.Depicts (threeNodes.copy "a" [] "b" [] [["next"], ["number"]]) := by
  refine ⟨serial_threeNodes _, depicts_threeNodes,
    ⟨⟨"a", ["next"], ⟨[], ⟨rfl, rfl⟩, rfl⟩, rfl⟩, trivial⟩, _, rfl, fun h => ?_⟩
  have hnumber := h.cells "a" ["number"] (.number 1) rfl
  exact absurd (Memory.admits_number.1 hnumber) (by decide)

end State
end StaticAnalysis
