import DefiniteAssignment.Run
import DefiniteAssignment.Scope.Session
import DefiniteAssignment.Stack.Session
import DefiniteAssignment.Flow.Touch
import DefiniteAssignment.Flow.Deed
import DefiniteAssignment.Flow.Program
import DefiniteAssignment.Proofs.Lists
import DefiniteAssignment.Proofs.Contract.Basic
import DefiniteAssignment.Proofs.Contract.Pops
import DefiniteAssignment.Proofs.Contract.Run
import DefiniteAssignment.Proofs.Contract.Storage
import DefiniteAssignment.Proofs.Contract.Scope
import DefiniteAssignment.Proofs.Contract.Stack
import DefiniteAssignment.Proofs.Scope.View
import DefiniteAssignment.Proofs.Scope.Arms
import DefiniteAssignment.Proofs.Scope.Calls
import DefiniteAssignment.Proofs.Scope.Reached
import DefiniteAssignment.Proofs.Scope.Growth
import DefiniteAssignment.Proofs.Stack.View
import DefiniteAssignment.Proofs.Stack.Names
import DefiniteAssignment.Proofs.Stack.Outline
import DefiniteAssignment.Proofs.Stack.Room
import DefiniteAssignment.Proofs.Flow.Induction
import DefiniteAssignment.Proofs.Flow.Moves
import DefiniteAssignment.Proofs.Flow.Paths
import DefiniteAssignment.Proofs.Flow.Analysis
import DefiniteAssignment.Proofs.Flow.Runs
import DefiniteAssignment.Proofs.Flow.Touch
import DefiniteAssignment.Proofs.Flow.Frozen
import DefiniteAssignment.Proofs.Flow.Meet
import DefiniteAssignment.Proofs.Flow.AllPaths
import DefiniteAssignment.Proofs.Stack.Shares
import DefiniteAssignment.Proofs.Contract.InPlace
import DefiniteAssignment.Proofs.Stack.Depths
import DefiniteAssignment.Proofs.Stack.Product
import DefiniteAssignment.Proofs.Stack.Isolation
import DefiniteAssignment.Proofs.Scope.Interference
import DefiniteAssignment.Proofs.Scope.Arising
import DefiniteAssignment.Proofs.Stack.Arising
import DefiniteAssignment.Proofs.Stack.SoleArm
import DefiniteAssignment.Proofs.Scope.Recommendation
import DefiniteAssignment.Proofs.Stack.Turns
import DefiniteAssignment.Proofs.Stack.Conservation
import DefiniteAssignment.Proofs.Stack.Overflow
import DefiniteAssignment.Proofs.Stack.Verdicts
import DefiniteAssignment.Proofs.Scope.Below
import DefiniteAssignment.Proofs.Scope.Joining
import DefiniteAssignment.Proofs.Flow.Effect
import DefiniteAssignment.Proofs.Flow.Chain
import DefiniteAssignment.Proofs.Scope.Traces
import DefiniteAssignment.Proofs.Scope.Siblings
import DefiniteAssignment.Proofs.Scope.Declaring
import DefiniteAssignment.Proofs.Stack.Meaning
import DefiniteAssignment.Proofs.Scope.Sequence
import DefiniteAssignment.Proofs.Scope.Deferral
import DefiniteAssignment.Proofs.Flagged.Basic
import DefiniteAssignment.Proofs.Flagged.WellFormed
import DefiniteAssignment.Proofs.Flagged.Mirror
import DefiniteAssignment.Proofs.Flagged.Arising
import DefiniteAssignment.Proofs.Scope.FirstOrder
import DefiniteAssignment.Proofs.Scope.Reservations
import DefiniteAssignment.Proofs.Scope.Checking
import DefiniteAssignment.Proofs.Report.Texts
import DefiniteAssignment.Proofs.Report.Log
