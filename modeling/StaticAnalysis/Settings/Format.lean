import StaticAnalysis.Report.Format

/-!
# Settings and contexts as JSON
-/

namespace StaticAnalysis

/-! ## Settings -/

def DomainSet.toJson (d : DomainSet) : Json :=
  .ofFields [("interval", .bool d.interval), ("congruence", .bool d.congruence)]

def RelationKind.toJson : RelationKind → Json
  | .none => .ofString "None"
  | .boxes => .ofString "Interval"
  | .octagon => .ofString "Octagon"
  | .polyhedra => .ofString "Polyhedra"

def ContextPolicy.toJson : ContextPolicy → Json
  | .insensitive => .ofString "Insensitive"
  | .callString n => .alternative "CallString" (.ofNat n)
  | .callSite n => .alternative "CallSite" (.ofNat n)
  | .gas n => .alternative "Gas" (.ofNat n)

def Publication.toJson : Publication → Json
  | .none => .ofString "None"
  | .protection => .ofString "Protection"
  | .mutexMeet => .ofString "MutexMeet"
  | .mutexMeetThread => .ofString "MutexMeetTid"
  | .lockDigest => .ofString "LockDigest"

def Modularity.toJson (m : Modularity) : Json :=
  .ofFields [("functions", .ofList .ofString m.functions), ("auto", .bool m.auto)]

def Settings.toJson (s : Settings) : Json :=
  .ofFields [
    ("domains", s.domains.toJson),
    ("relational", s.relation.toJson),
    ("context", s.context.toJson),
    ("privatization", s.publication.toJson),
    ("modular", s.modularity.toJson),
    ("precision", .ofFields (s.precision.entries.map fun (f, d) => (f, d.toJson))),
    ("entry_points", .ofList .ofString s.entryPoints),
    ("widening_delay", .ofNat s.wideningDelay),
    ("narrowing_iterations", .ofNat s.narrowingRounds),
    ("max_evaluations", .ofNat s.maxEvaluations),
    ("modular_unroll_bound", .ofNat s.unrollBound),
    ("array_partitioning", .bool s.partitionArrays),
    ("export_invariants", .bool s.exportInvariants)]

/-! ## Contexts -/

def Frame.toJson (f : Frame) : Json :=
  .ofFields [("function", .ofString f.function), ("site", .ofOption .ofNat f.site)]

def History.toJson : History → Json
  | .insensitive => .ofString "Insensitive"
  | .callString sites => .alternative "CallString" (.ofList .ofNat sites)
  | .callSite sites => .alternative "CallSite" (.ofList .ofNat sites)
  | .gas chain left =>
    .alternative "Gas" (.ofFields [("chain", .ofList Frame.toJson chain), ("gas", .ofNat left)])
  | .exhausted => .ofString "Exhausted"
  | .modular => .ofString "Modular"

def Context.toJson (c : Context) : Json :=
  .ofFields [("history", c.history.toJson), ("thread", c.thread.toJson)]

end StaticAnalysis
