import StaticAnalysis.Settings.Error
import StaticAnalysis.Text.Field
import StaticAnalysis.Thread.Publication

/-!
# Settings of an analysis

Which domains are used, how contexts are told apart, when globals are published, which functions
are analysed in isolation, and the parameters of the iteration.  Every enumerated option can be
read from its name.
-/

namespace StaticAnalysis

/-! ## Options by name -/

def DomainSet.ofName? (name : String) : Option DomainSet :=
  if name = "interval" ∨ name = "intervals" then some ⟨true, false⟩
  else if name = "congruence" ∨ name = "congruences" then some ⟨false, true⟩
  else none

def DomainSet.parse (s : String) : Except AnalysisError DomainSet :=
  (Text.fields s).foldlM (fun d name =>
    match DomainSet.ofName? name with
    | some e => .ok (d.union e)
    | none => .error (.unknownDomain name)) DomainSet.empty

def RelationKind.parse (s : String) : Except AnalysisError RelationKind :=
  let name := Text.trim s
  if name = "none" then .ok .none
  else if name = "interval" ∨ name = "apron-interval" ∨ name = "box" then .ok .boxes
  else if name = "octagon" then .ok .octagon
  else if name = "polyhedra" ∨ name = "affeq" then .ok .polyhedra
  else .error (.unknownDomain name)

/-- A context policy: a name, and after a colon its bound.  Lengths are 64-bit numbers and gas is a
32-bit number. -/
def ContextPolicy.parse (s : String) : Except AnalysisError ContextPolicy :=
  let (head, tail) := Text.splitColon s
  let policy : Option ContextPolicy :=
    match Text.trim head, tail.map Text.trim with
    | "insensitive", none => some .insensitive
    | "call-string", some n => (Text.unsigned? 0x10000000000000000 n).map .callString
    | "call-site", some n => (Text.unsigned? 0x10000000000000000 n).map .callSite
    | "gas", some n => (Text.unsigned? 0x100000000 n).map .gas
    | _, _ => none
  match policy with
  | some p => .ok p
  | none => .error (.unknownContextPolicy s)

/-- A policy must keep something of the history. -/
def ContextPolicy.validate : ContextPolicy → Except AnalysisError Unit
  | .callString 0 => .error (.conflict (.emptyHistory (.callString 0)))
  | .callSite 0 => .error (.conflict (.emptyHistory (.callSite 0)))
  | .gas 0 => .error (.conflict .noGas)
  | _ => .ok ()

def Publication.parse (s : String) : Except AnalysisError Publication :=
  let name := Text.trim s
  if name = "none" then .ok .none
  else if name = "protection" ∨ name = "protection-read" then .ok .protection
  else if name = "mutex-meet" then .ok .mutexMeet
  else if name = "mutex-meet-tid" then .ok .mutexMeetThread
  else if name = "lock-digest" ∨ name = "lock" then .ok .lockDigest
  else .error (.unknownPublication name)

/-! ## Settings -/

/-- The functions that are analysed in isolation. -/
structure Modularity where
  functions : List String := []
  /-- Every function but the entry points. -/
  auto : Bool := false
deriving DecidableEq, Repr

def Modularity.isEnabled (m : Modularity) : Bool := m.auto || !m.functions.isEmpty

structure Settings where
  /-- The integer domains of values. -/
  domains : DomainSet := .intervals
  /-- The relational domain over the integer locals. -/
  relation : RelationKind := .none
  context : ContextPolicy := .callString 5
  publication : Publication := .protection
  modularity : Modularity := {}
  /-- Fewer integer domains for single functions. -/
  precision : SortedMap String DomainSet := .empty
  /-- The functions that start with the initial state. -/
  entryPoints : List String := ["main"]
  /-- Updates of a value before it is widened. -/
  wideningDelay : Nat := 3
  /-- Descending rounds after the ascending iteration. -/
  narrowingRounds : Nat := 2
  /-- The ceiling on evaluations. -/
  maxEvaluations : Nat := 10000000
  /-- Updates of the summary of a recursive function before it gives up. -/
  unrollBound : Nat := 3
  /-- Split arrays at the last written index. -/
  partitionArrays : Bool := true
  exportInvariants : Bool := false
deriving DecidableEq

namespace Settings

/-- Read one name of a mixed list of domains: an integer domain, or else a relational one, of which
there may be only one. -/
def addDomainName (choice : DomainSet × RelationKind) (name : String) :
    Except AnalysisError (DomainSet × RelationKind) :=
  match DomainSet.ofName? name with
  | some d => .ok (choice.1.union d, choice.2)
  | none => do
    let kind ← RelationKind.parse name
    if choice.2 ≠ .none ∧ choice.2 ≠ kind then
      throw (.conflict (.twoRelations choice.2 kind))
    return (choice.1, kind)

/-- Choose integer and relational domains by a comma-separated list of names; without an integer
domain intervals are used. -/
def withDomainNames (s : Settings) (names : String) : Except AnalysisError Settings := do
  let (domains, relation) ← (Text.fields names).foldlM addDomainName (DomainSet.empty, .none)
  return { s with domains := if domains.isEmpty then .intervals else domains, relation }

/-- The integer domains for the cells of a function. -/
def domainsFor (s : Settings) (function : String) : DomainSet := s.precision.getD function s.domains

/-- Whether a function is analysed in isolation. -/
def isModular (s : Settings) (function : String) : Bool :=
  !s.entryPoints.contains function && (s.modularity.auto || s.modularity.functions.contains function)

/-- The first reason to refuse the settings for a program. -/
def validate (s : Settings) (g : Graph) : Except AnalysisError Unit := do
  let known (f : String) : Except AnalysisError Unit :=
    if (g.function? f).isSome then .ok () else .error (.unknownFunction f)
  if s.domains.isEmpty then throw (.conflict .noDomain)
  s.context.validate
  if s.maxEvaluations = 0 then throw (.conflict .noEvaluations)
  if s.entryPoints.isEmpty then throw (.conflict .noEntryPoint)
  s.entryPoints.forM known
  s.modularity.functions.forM fun f => do
    known f
    if s.entryPoints.contains f then throw (.conflict (.modularEntry f))
  s.precision.entries.forM fun (f, d) => do
    known f
    if d.isEmpty || !d.isSubset s.domains then throw (.conflict (.precision f d s.domains))

end Settings
end StaticAnalysis
