import Mathlib.Tactic.Lemma
import StaticAnalysis.State.Typing

/-!
# Programs without arrays

A program is *scalar* if no variable and no field is an array, nothing is indexed (which would make
any value an array), and its constants are words.  Pointers and structs are allowed.
-/

namespace StaticAnalysis

open List

def Ty.isArray : Ty → Bool
  | .array _ _ => true
  | _ => false

mutual

/-- Constants are words and nothing is indexed. -/
def Expr.isScalar : Expr → Bool
  | .const n => Word.fits n
  | .read lv => lv.isScalar
  | .addrOf lv => lv.isScalar
  | .null | .unknown | .unsupported _ => true
  | .arith _ a b => a.isScalar && b.isScalar
  | .neg e => e.isScalar
  | .truth c => c.isScalar

/-- Constants are words and nothing is indexed. -/
def LValue.isScalar : LValue → Bool
  | .var _ => true
  | .field base _ => base.isScalar
  | .index _ _ => false
  | .deref p => p.isScalar

/-- Constants are words and nothing is indexed. -/
def Cond.isScalar : Cond → Bool
  | .always | .never => true
  | .cmp _ a b => a.isScalar && b.isScalar
  | .not c => c.isScalar
  | .and p q => p.isScalar && q.isScalar
  | .or p q => p.isScalar && q.isScalar

end

def Action.isScalar : Action → Bool
  | .assign lv e => lv.isScalar && e.isScalar
  | .guard c => c.isScalar
  | .check _ c => c.isScalar
  | .call target _ args => target.all LValue.isScalar && args.all Expr.isScalar
  | .ret e => e.all Expr.isScalar
  | .spawn _ arg => arg.all Expr.isScalar
  | .havoc lv => lv.isScalar
  | .alloc lv => lv.isScalar
  | .skip | .lock _ | .unlock _ | .join _ => true

lemma Cell.fields_eq (c : Cell) (path : List String) :
    c.fields path = { c with path := c.path ++ path } := by
  induction path generalizing c with
  | nil => simp [Cell.fields]
  | cons f path ih =>
    change (c.field f).fields path = _
    rw [ih]
    simp [Cell.field]

namespace Graph

/-- No variable and no field is an array, nothing is indexed, and constants are words. -/
def isScalar (g : Graph) : Bool :=
  g.globals.values.all (fun d => !d.decl.ty.isArray && d.init.all fun i => Word.fits i.2) &&
    g.structs.values.all (fun fields => fields.all fun d => !d.ty.isArray) &&
    g.functions.values.all (fun f => (f.params ++ f.locals).all fun d => !d.ty.isArray) &&
    g.edges.toList.all fun e => e.action.isScalar

variable {g : Graph}

variable {e : Edge} {ty : Ty} {n id : Nat} {ie : Nat × Edge}

section

variable (hg : g.isScalar)
include hg

lemma isScalar_action (he : e ∈ g.edges.toList) : e.action.isScalar := by
  simp only [isScalar, Bool.and_eq_true, all_eq_true] at hg
  exact hg.2 e he

lemma isScalar_global {name : String} {d : GlobalDecl} (hd : g.globals.get? name = some d) :
    d.decl.ty.isArray = false ∧ ∀ i ∈ d.init, Word.fits i.2 := by
  simp only [isScalar, Bool.and_eq_true, all_eq_true] at hg
  have := hg.1.1.1 d (mem_map.2 ⟨(name, d), SortedMap.get?_eq_some_iff.1 hd, rfl⟩)
  simpa using this

lemma isScalar_field {struct field : String}
    (h : g.fieldType? struct field = some ty) : ty.isArray = false := by
  simp only [isScalar, Bool.and_eq_true, all_eq_true] at hg
  simp only [fieldType?, fields?, Option.bind_eq_some_iff, Option.map_eq_some_iff] at h
  obtain ⟨fields, hfields, d, hd, rfl⟩ := h
  have hmem : fields ∈ g.structs.values :=
    mem_map.2 ⟨(struct, fields), SortedMap.get?_eq_some_iff.1 hfields, rfl⟩
  have := hg.1.1.2 fields hmem d (mem_of_find?_eq_some hd)
  simpa using this

lemma isArray_partType? {path : List String} {ty' : Ty}
    (hty : ty.isArray = false) (h : g.partType? ty path = some ty') : ty'.isArray = false := by
  induction path generalizing ty with
  | nil =>
    cases ty <;> (simp only [partType?] at h; cases h; exact hty)
  | cons f path ih =>
    cases ty with
    | struct name =>
      simp only [partType?, Option.bind_eq_some_iff] at h
      obtain ⟨fieldTy, hfield, h⟩ := h
      exact ih (isScalar_field hg hfield) h
    | _ => simp [partType?] at h

lemma isArray_globalCell (name : String) (path : List String) :
    ((g.cellType? ((Cell.ofGlobal name).fields path)).getD .int).isArray = false := by
  rw [Cell.fields_eq]
  cases h : g.cellType? { Cell.ofGlobal name with path := (Cell.ofGlobal name).path ++ path } with
  | none => rfl
  | some ty =>
    obtain ⟨root, hroot, hpart⟩ := Option.bind_eq_some_iff.1 h
    obtain ⟨d, hd, rfl⟩ := Option.map_eq_some_iff.1 hroot
    exact isArray_partType? hg (isScalar_global hg hd).1 hpart

end

/-- What the analysis needs of a scalar program: its actions are scalar, and so are the static
values of its globals. -/
structure Scalar (g : Graph) : Prop where
  action : ∀ e ∈ g.edges.toList, e.action.isScalar = true
  init : ∀ name d, g.globals.get? name = some d → ∀ i ∈ d.init, Word.fits i.2 = true
  part : ∀ name d, g.globals.get? name = some d → ∀ path ∈ g.scalarPaths d.decl.ty,
    ((g.cellType? ((Cell.ofGlobal name).fields path)).getD .int).isArray = false

lemma scalar_of_isScalar (hg : g.isScalar) : g.Scalar where
  action _ := isScalar_action hg
  init _ _ hd := (isScalar_global hg hd).2
  part name _ _ path _ := isArray_globalCell hg name path

lemma getElem?_of_edgesInto (h : ie ∈ g.edgesInto n) :
    g.edges[ie.1]? = some ie.2 ∧ ie.2.dst = n := by
  obtain ⟨hmem, hdst⟩ := mem_filter.1 h
  obtain ⟨⟨e, i⟩, hzip, rfl⟩ := mem_map.1 hmem
  have := mk_mem_zipIdx_iff_getElem?.1 hzip
  exact ⟨by simpa using this, by simpa using hdst⟩

lemma mem_edges_of_edgesInto (h : ie ∈ g.edgesInto n) : ie.2 ∈ g.edges.toList := by
  have := (getElem?_of_edgesInto h).1
  exact mem_of_getElem? (by simpa using this)

lemma mem_edges_of_edgesFrom (h : ie ∈ g.edgesFrom n) : ie.2 ∈ g.edges.toList := by
  obtain ⟨⟨e, i⟩, hzip, rfl⟩ := mem_map.1 (mem_filter.1 h).1
  exact mem_of_getElem? (mk_mem_zipIdx_iff_getElem?.1 hzip)

section

variable (h : g.edges[id]? = some e)
include h

lemma mem_numberedEdges : (id, e) ∈ g.numberedEdges :=
  mem_map.2 ⟨(e, id), mk_mem_zipIdx_iff_getElem?.2 (by simpa using h), rfl⟩

lemma mem_edgesInto : (id, e) ∈ g.edgesInto e.dst :=
  mem_filter.2 ⟨mem_numberedEdges h, by simp⟩

lemma mem_edgesFrom : (id, e) ∈ g.edgesFrom e.src :=
  mem_filter.2 ⟨mem_numberedEdges h, by simp⟩

end

end Graph
end StaticAnalysis
