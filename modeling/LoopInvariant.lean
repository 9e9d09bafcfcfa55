import LoopInvariant.Examples
import LoopInvariant.Verifier
import LoopInvariant.Proofs.LinearForm
import LoopInvariant.Proofs.Meaning
import LoopInvariant.Proofs.Outcome
import LoopInvariant.Proofs.NormalForm
import LoopInvariant.Proofs.Cases
import LoopInvariant.Proofs.Feasibility
import LoopInvariant.Proofs.Model
import LoopInvariant.Proofs.Search
import LoopInvariant.Proofs.Solver
import LoopInvariant.Proofs.Loop
import LoopInvariant.Proofs.Obligation
import LoopInvariant.Proofs.Simplify
import LoopInvariant.Proofs.Trace
import LoopInvariant.Proofs.Candidate
import LoopInvariant.Proofs.Verifier
import LoopInvariant.Proofs.Translation
import LoopInvariant.Proofs.Bland
import LoopInvariant.Proofs.Phases
import LoopInvariant.Proofs.Labels
import LoopInvariant.Proofs.Bookkeeping
import LoopInvariant.Proofs.Failures
import LoopInvariant.Proofs.Dimensions
import LoopInvariant.Proofs.Errors
import LoopInvariant.Proofs.Repetition
import LoopInvariant.Proofs.Worklist
import LoopInvariant.Proofs.Budget
import LoopInvariant.Proofs.Boxes
import LoopInvariant.Proofs.Evaluation
import LoopInvariant.Proofs.Faults
import LoopInvariant.Proofs.Reduction
import LoopInvariant.Proofs.Filing
import LoopInvariant.Proofs.Regions
import LoopInvariant.Proofs.Shrinkage
import LoopInvariant.Proofs.Persistence
import LoopInvariant.Proofs.Unrolling
import LoopInvariant.Proofs.Halfspace
import LoopInvariant.Proofs.Reflection
import LoopInvariant.Proofs.Canonical
import LoopInvariant.Proofs.MaxMargin
import LoopInvariant.Proofs.Rows
import LoopInvariant.Proofs.Word
import LoopInvariant.Proofs.Renaming
import LoopInvariant.Proofs.Exhaustion
