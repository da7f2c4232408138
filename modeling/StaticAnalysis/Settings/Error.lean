import StaticAnalysis.Call.Context
import StaticAnalysis.Numeric.DomainSet
import StaticAnalysis.Relation.Relation

/-!
# Why there is no result

An analysis stops before it starts because of an option or a malformed program, or while it runs
because the evaluation ceiling is reached or a word operation faults.  Lost precision is never an
error: it shows as an unknown verdict.
-/

namespace StaticAnalysis

/-- What is wrong with a program. -/
inductive Malformation where
  | missingNode (edge : Nat)
  | undefinedCallee (edge : Nat) (function : String)
  | undefinedThread (edge : Nat) (function : String)
  | dangling (function : String)
deriving DecidableEq, Repr

def quoted (name : String) : String := "`" ++ name ++ "`"

def Malformation.message : Malformation → String
  | .missingNode e => edgeName e ++ " references a missing node"
  | .undefinedCallee e f => edgeName e ++ " calls undefined function " ++ quoted f
  | .undefinedThread e f => edgeName e ++ " spawns undefined function " ++ quoted f
  | .dangling f => "function " ++ quoted f ++ " has dangling entry/exit"

/-- Options that do not go together. -/
inductive Conflict where
  | twoRelations (first second : RelationKind)
  | noDomain
  | emptyHistory (policy : ContextPolicy)
  | noGas
  | noEvaluations
  | noEntryPoint
  | modularEntry (function : String)
  | precision (function : String) (domains enabled : DomainSet)
deriving DecidableEq

def Conflict.message : Conflict → String
  | .twoRelations a b =>
    "relational domains " ++ quoted a.text ++ " and " ++ quoted b.text ++ " both selected"
  | .noDomain => "no integer domain enabled"
  | .emptyHistory p => "context policy " ++ quoted p.text ++ " needs a positive length"
  | .noGas => "gas policy needs a positive budget"
  | .noEvaluations => "evaluation ceiling must be positive"
  | .noEntryPoint => "no entry point"
  | .modularEntry f => quoted f ++ " is both an entry point and modular"
  | .precision f d e =>
    "precision of " ++ quoted f ++ " (" ++ d.text ++ ") is not a non-empty subset of (" ++ e.text ++
      ")"

/-- Why an analysis has no result. -/
inductive AnalysisError where
  | unknownDomain (name : String)
  | unknownContextPolicy (name : String)
  | unknownPublication (name : String)
  | conflict (c : Conflict)
  | unknownFunction (name : String)
  | malformed (m : Malformation)
  | nonTermination (evaluations : Nat)
  | fault (f : Fault)
deriving DecidableEq

namespace AnalysisError

def message : AnalysisError → String
  | .unknownDomain name => "unknown abstract domain " ++ quoted name
  | .unknownContextPolicy name => "unknown context policy " ++ quoted name
  | .unknownPublication name => "unknown privatization " ++ quoted name
  | .conflict c => "conflicting options: " ++ c.message
  | .unknownFunction name => "unknown function " ++ quoted name
  | .malformed m => "malformed CFG: " ++ m.message
  | .nonTermination n => "fixpoint not reached after " ++ toString n ++ " evaluations"
  | .fault f => f.message

/-- The outcome of a step that can only fault, as an outcome of an analysis. -/
def ofFault {α : Type} : Except Fault α → Except AnalysisError α
  | .ok a => .ok a
  | .error f => .error (.fault f)

end AnalysisError
end StaticAnalysis
