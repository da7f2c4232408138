import StaticAnalysis.State.Basic
import StaticAnalysis.State.Typing

/-!
# Start states

A program starts with its globals at their static initializers.  A function that is analysed
without its callers starts knowing nothing about them: integer parameters are unknown, and a
pointer parameter points to an object of its own that belongs to the caller.
-/

namespace StaticAnalysis.State

def staticValue (init : List (List String × Int)) (ty : Ty) (path : List String) : Value :=
  match init.find? (·.1 == path) with
  | some (_, n) => if ty.isPointer && n == 0 then .addr .null else .ofInt n
  | none => ty.zero

def initial (g : Graph) (settings : Settings) : Except Fault State :=
  g.globals.entries.foldlM (fun s (name, global) =>
    (g.scalarPaths global.decl.ty).foldlM (fun s path => do
      let c := (Cell.ofGlobal name).fields path
      let ty := (g.cellType? c).getD .int
      s.set c (staticValue global.init ty path)) s) (unknown settings.relation)

/-- The state in which a function starts that is analysed without its callers. -/
def modularEntry (g : Graph) (settings : Settings) (function : String) : Except Fault State :=
  match g.function? function with
  | none => .ok unreachable
  | some f =>
    f.params.foldlM (fun s param => do
      let base := Cell.ofLocal function param.name
      match param.ty with
      | .ptr _ => s.set base (.addr (.ofParam function param.name))
      | .struct _ =>
        (g.scalarPaths param.ty).foldlM (fun s path =>
          let c := base.fields path
          s.set c (if (g.cellType? c).any (·.isPointer) then .addr .any else .top)) s
      | _ => s.set base .top) (unknown settings.relation)

end StaticAnalysis.State
