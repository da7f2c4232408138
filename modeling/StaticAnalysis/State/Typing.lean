import StaticAnalysis.Memory.Value
import StaticAnalysis.Settings.Settings

/-!
# Cells and types of a program

The scalar cells of variables, the declared types of cells and designators, and `Env`: what a
transition may consult besides the state it starts from.

A struct is not a cell of its own; its scalar fields are.  Structs do not contain themselves, so
following fields goes no deeper than the number of structs, which bounds the recursion.
-/

namespace StaticAnalysis
namespace Graph

variable (g : Graph)

def fields? (struct : String) : Option (List VarDecl) := g.structs.get? struct

def fieldType? (struct field : String) : Option Ty :=
  (g.fields? struct).bind fun fields => (fields.find? (·.name == field)).map (·.ty)

def nesting : Nat := g.structs.size + 1

/-- The field paths of the scalars in a value of a type, to a given depth. -/
def scalarPathsWithin (g : Graph) : Nat → Ty → List (List String)
  | depth + 1, .struct name =>
    match g.fields? name with
    | some fields => fields.flatMap fun d => (g.scalarPathsWithin depth d.ty).map (d.name :: ·)
    | none => [[]]
  | _, _ => [[]]

/-- The field paths of the scalars in a value of a type. -/
def scalarPaths (ty : Ty) : List (List String) := g.scalarPathsWithin g.nesting ty

def globalCells : List Cell :=
  g.globals.entries.flatMap fun (name, global) =>
    (g.scalarPaths global.decl.ty).map (Cell.ofGlobal name).fields

def partType? (g : Graph) : Ty → List String → Option Ty
  | ty, [] => some ty
  | .struct name, f :: path => (g.fieldType? name f).bind fun ty => g.partType? ty path
  | _, _ :: _ => none

/-- The declared type of a cell.  Names that a function does not declare are integers, and heap
objects and objects of a caller have no known type. -/
def cellType? (c : Cell) : Option Ty :=
  let root : Option Ty := match c.base with
    | .localVar function name => some (((g.function? function).bind (·.varType? name)).getD .int)
    | .globalVar name => (g.globals.get? name).map (·.decl.ty)
    | .heap _ | .opaqueParam _ _ => none
  root.bind fun ty => g.partType? ty c.path

/-- The length of the array in a cell, if it is declared. -/
def arrayLength? (c : Cell) : Option Int :=
  match g.cellType? c with
  | some (.array _ n) => some n
  | _ => none

end Graph

/-- The value of a static variable without an initializer. -/
def Ty.zero : Ty → Value
  | .int => .ofInt 0
  | .ptr _ => .addr .null
  | .array element n => .array (.uniform (some n) element.zero)
  | .struct _ => .top

/-- What a transition may consult besides the state. -/
structure Env where
  graph : Graph
  settings : Settings
  /-- The function of the transition. -/
  function : String
  thread : ThreadId
  edge : Nat
  /-- The function is analysed without its callers. -/
  modular : Bool

namespace Env

/-- The integer domains for the current function. -/
def domains (env : Env) : DomainSet := env.settings.domainsFor env.function

/-- Whether a name is a local: locals shadow globals, and undeclared names are locals. -/
def isLocal (env : Env) (name : String) : Bool :=
  ((env.graph.function? env.function).bind (·.varType? name)).isSome || !env.graph.isGlobal name

def varCell (env : Env) (name : String) : Cell :=
  if env.isLocal name then .ofLocal env.function name else .ofGlobal name

def varType (env : Env) (name : String) : Ty := (env.graph.cellType? (env.varCell name)).getD .int

mutual

def lvalueType? (env : Env) : LValue → Option Ty
  | .var v => some (env.varType v)
  | .field base f =>
    match env.lvalueType? base with
    | some (.struct name) => env.graph.fieldType? name f
    | _ => none
  | .index base _ =>
    match env.lvalueType? base with
    | some (.array element _) => some element
    | _ => none
  | .deref p =>
    match env.exprType? p with
    | some (.ptr target) => some target
    | _ => none

/-- The type of an expression as far as it matters for designators. -/
def exprType? (env : Env) : Expr → Option Ty
  | .read lv => env.lvalueType? lv
  | .addrOf lv => (env.lvalueType? lv).map .ptr
  | .null => none
  | _ => some .int

end

end Env
end StaticAnalysis
