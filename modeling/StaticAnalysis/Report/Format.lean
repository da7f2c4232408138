import StaticAnalysis.Invariant.Format
import StaticAnalysis.Report.Report

/-!
# Reports as JSON

The findings of an analysis for other tools.  Alternatives are written as their name, or as an
object with one field of that name that holds what belongs to them.
-/

namespace StaticAnalysis

def Verdict.toJson : Verdict → Json
  | .proven => .ofString "Proven"
  | .refuted => .ofString "Refuted"
  | .unknown => .ofString "Unknown"

def CheckResult.toJson (c : CheckResult) : Json :=
  .ofFields [
    ("id", .ofNat c.id),
    ("node", .ofNat c.node),
    ("location", .ofOption Location.toJson c.location),
    ("condition", .ofString c.condition),
    ("verdict", c.verdict.toJson),
    ("reachable", .bool c.reachable)]

def LockOp.toJson : LockOp → Json
  | .lock => .ofString "Lock"
  | .unlock => .ofString "Unlock"

def LockCheck.toJson (c : LockCheck) : Json :=
  .ofFields [
    ("edge", .ofNat c.edge),
    ("mutex", .ofString c.mutex),
    ("op", c.op.toJson),
    ("verdict", c.verdict.toJson)]

def ThreadId.toJson : ThreadId → Json
  | .main => .ofString "Main"
  | .created parent site function unique =>
    .alternative "Created" (.ofFields [
      ("parent", parent.toJson),
      ("site", .ofNat site),
      ("function", .ofString function),
      ("unique", .bool unique)])

def Base.toJson : Base → Json
  | .localVar function name =>
    .alternative "Local" (.ofFields [("function", .ofString function), ("name", .ofString name)])
  | .globalVar name => .alternative "Global" (.ofString name)
  | .heap edge => .alternative "Heap" (.ofNat edge)
  | .opaqueParam function param =>
    .alternative "Opaque" (.ofFields [("function", .ofString function), ("param", .ofString param)])

def Cell.toJson (c : Cell) : Json :=
  .ofFields [("base", c.base.toJson), ("path", .ofList .ofString c.path)]

def Access.toJson (a : Access) : Json :=
  .ofFields [
    ("thread", a.thread.toJson),
    ("write", .bool a.write),
    ("locks", .ofList .ofString a.locks.toList),
    ("joined", .ofList ThreadId.toJson a.joined.toList),
    ("created", .ofList ThreadId.toJson a.created.toList),
    ("edge", .ofNat a.edge)]

namespace Warning

def misuse (mutex : String) (edge : Nat) (definite : Bool) : Json :=
  .ofFields [("mutex", .ofString mutex), ("edge", .ofNat edge), ("definite", .bool definite)]

def toJson : Warning → Json
  | .doubleLock m e definite => .alternative "DoubleLock" (misuse m e definite)
  | .unlockNotHeld m e definite => .alternative "UnlockNotHeld" (misuse m e definite)
  | .race c a b =>
    .alternative "Race" (.ofFields [("cell", c.toJson), ("first", a.toJson), ("second", b.toJson)])

end Warning

def Report.toJson (r : Report) : Json :=
  .ofFields [
    ("checks", .ofList CheckResult.toJson r.checks),
    ("locks", .ofList LockCheck.toJson r.locks),
    ("warnings", .ofList Warning.toJson r.warnings)]

end StaticAnalysis
