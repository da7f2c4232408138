import StaticAnalysis.Invariant.Basic
import StaticAnalysis.Program.Validity
import StaticAnalysis.Report.Report
import StaticAnalysis.Revision.Resume

/-!
# Analysing a program

`analyze` runs an analysis from scratch, and `reanalyze` runs it on an edited program from the
result on the version before.  Both refuse malformed programs and settings that do not go together,
solve the program, and report on the solution.
-/

namespace StaticAnalysis

/-- All that an analysis finds. -/
structure AnalysisResult where
  solution : Solution
  report : Report
  /-- There if the settings ask for them. -/
  invariants : Option InvariantExport

namespace AnalysisResult

def check? (r : AnalysisResult) (id : Nat) : Option CheckResult :=
  r.report.checks.find? (·.id == id)

def verdicts (r : AnalysisResult) : List Verdict := r.report.checks.map (·.verdict)

/-- Whether there is a race on a global or a part of it. -/
def hasRace (r : AnalysisResult) (name : String) : Bool :=
  r.report.warnings.any fun w =>
    match w with
    | .race c _ _ => c.isWithin (.ofGlobal name)
    | _ => false

def ofSolution (graph : Graph) (settings : Settings) (solution : Solution) :
    Except Fault AnalysisResult := do
  let report ← Report.ofSolution graph settings solution
  let invariants ←
    if settings.exportInvariants then some <$> InvariantExport.ofSolution graph solution
    else pure none
  return { solution, report, invariants }

end AnalysisResult

/-- Refuse a malformed program, and then settings that do not fit it. -/
def validate (graph : Graph) (settings : Settings) : Except AnalysisError Unit := do
  graph.validate
  settings.validate graph

def analyze (graph : Graph) (settings : Settings) : Except AnalysisError AnalysisResult := do
  validate graph settings
  let solution ← (Solver.new graph settings).solve
  AnalysisError.ofFault (AnalysisResult.ofSolution graph settings solution)

/-- Analyse an edited program, reusing the solution of the version before. -/
def reanalyze (old graph : Graph) (settings : Settings) (previous : Solution) :
    Except AnalysisError AnalysisResult := do
  validate graph settings
  let solution ← Solver.resolve graph settings previous (Graph.changedNodes old graph)
  AnalysisError.ofFault (AnalysisResult.ofSolution graph settings solution)

end StaticAnalysis
