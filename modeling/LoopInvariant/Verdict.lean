import LoopInvariant.Duration
import LoopInvariant.Expr
import LoopInvariant.Failure

/-! How a verification can end. -/
namespace LoopInvariant

/-- Why no verdict was reached. -/
inductive Reason where
  | roundLimit (rounds : Nat)
  | timeout (limit : Duration)
  | unroll (start : Point) (limit : Nat)
  | solver (attempts : Nat)
  | separator (iterations : Nat)
  deriving DecidableEq

inductive Verdict where
  /-- A formula over the plain variables that proves the loop correct. -/
  | invariant (e : Expr)
  /-- Some run starts in the precondition and ends outside the postcondition. -/
  | disproved
  | inconclusive (r : Reason)
  deriving DecidableEq

def Reason.text : Reason → String
  | .roundLimit n => "no invariant after " ++ toString n ++ " rounds"
  | .timeout t => "timeout after " ++ t.text
  | .unroll start limit =>
    "loop from " ++ start.text ++ " still running after " ++ toString limit ++ " iterations"
  | .solver attempts => "solver unknown after " ++ toString attempts ++ " attempts"
  | .separator iterations =>
    "separator did not converge in " ++ toString iterations ++ " iterations"

def Verdict.text : Verdict → String
  | .invariant e => "invariant " ++ e.text
  | .disproved => "disproved"
  | .inconclusive r => "inconclusive: " ++ r.text

/-- Errors that end a verification without spoiling it. -/
def Reason.ofError? (timeout : Option Duration) : Error → Option Reason
  | .unrollLimit start limit => some (.unroll start limit)
  | .solverUnknown attempts => some (.solver attempts)
  | .notConverged iterations => some (.separator iterations)
  | .deadline => some (.timeout (timeout.getD ⟨0⟩))
  | _ => none

/-- Counters of one verification. -/
structure Stats where
  /-- Candidates learned. -/
  rounds : Nat := 0
  /-- States whose run was followed. -/
  classified : Nat := 0
  /-- Points in the sample set, those of runs included. -/
  samples : Nat := 0
  queries : Nat := 0
  trainings : Nat := 0
  elapsed : Duration := {}
  deriving DecidableEq

def Stats.text (s : Stats) : String :=
  toString s.rounds ++ " rounds, " ++ toString s.classified ++ " classified, "
    ++ toString s.samples ++ " samples, " ++ toString s.queries ++ " queries, "
    ++ toString s.trainings ++ " trainings in " ++ s.elapsed.shortText

structure Report where
  verdict : Verdict
  stats : Stats

end LoopInvariant
