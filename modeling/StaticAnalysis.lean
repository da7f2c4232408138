import StaticAnalysis.Program.Format
import StaticAnalysis.Settings.Format
import StaticAnalysis.Proofs.Program.Meaning
import StaticAnalysis.Proofs.State.Chains
import StaticAnalysis.Proofs.Soundness.Invariants
import StaticAnalysis.Proofs.Call.Histories
import StaticAnalysis.Proofs.Call.Recursion
import StaticAnalysis.Proofs.Transfer.CallReach
import StaticAnalysis.Proofs.Transfer.PointerEquality
import StaticAnalysis.Proofs.Transfer.Restriction
import StaticAnalysis.Proofs.Soundness.Activations
import StaticAnalysis.Proofs.Solver.Sharing
import StaticAnalysis.Proofs.Soundness.StructAssignment
import StaticAnalysis.Proofs.Soundness.ArrayWrites
import StaticAnalysis.Proofs.Numeric.Preimages
import StaticAnalysis.Proofs.Soundness.Differences
import StaticAnalysis.Proofs.Numeric.Rounding
import StaticAnalysis.Proofs.Memory.Meets
import StaticAnalysis.Proofs.Relation.Projections
import StaticAnalysis.Proofs.Relation.Returns
import StaticAnalysis.Proofs.Relation.EchelonForm
import StaticAnalysis.Proofs.Relation.AffineHulls
import StaticAnalysis.Proofs.Program.Cycles
import StaticAnalysis.Proofs.Revision.Restart
import StaticAnalysis.Proofs.Thread.LockSets
import StaticAnalysis.Proofs.Memory.Initialization
import StaticAnalysis.Proofs.Invariant.RoundTrip
