import LoopInvariant.Word

/-! Ways a computation ends without a result: ordinary errors, which are reported and after which
work may go on, and faults, after which nothing of the computation can be trusted. A computation
on a state keeps the state when it fails. -/
namespace LoopInvariant

/-- The two kinds of expression. -/
inductive Kind where
  | formula
  | term
  deriving DecidableEq

def Kind.text : Kind → String
  | .formula => "a formula"
  | .term => "an integer term"

inductive Error where
  | nonlinear (term : String)
  | sort (expected : Kind) (found : String)
  /-- A value left the 64-bit range during the named activity. -/
  | overflow (activity : String)
  | solverUnknown (attempts : Nat)
  | unrollLimit (start : Point) (limit : Nat)
  | partitionGap (point : Point) (partitions : Nat)
  | dimension (point : Point) (found expected : Nat)
  | settings (reason : String)
  | notConverged (iterations : Nat)
  | deadline
  | emptyTrainingSet
  deriving DecidableEq

def Error.message : Error → String
  | .nonlinear term => "nonlinear term `" ++ term ++ "` is outside linear integer arithmetic"
  | .sort expected found => "expected " ++ expected.text ++ ", found `" ++ found ++ "`"
  | .overflow activity => "integer overflow while " ++ activity
  | .solverUnknown attempts =>
    "solver returned unknown after " ++ toString attempts ++ " attempts"
  | .unrollLimit start limit =>
    "loop unrolling from " ++ start.text ++ " did not exit within " ++ toString limit
      ++ " iterations"
  | .partitionGap point partitions =>
    "sample " ++ point.text ++ " lies in none of the " ++ toString partitions
      ++ " path partitions"
  | .dimension point found expected =>
    "point " ++ point.text ++ " has " ++ toString found ++ " coordinates, expected "
      ++ toString expected
  | .settings reason => "invalid configuration: " ++ reason
  | .notConverged iterations =>
    "separator did not converge within " ++ toString iterations ++ " iterations"
  | .deadline => "deadline passed"
  | .emptyTrainingSet => "cannot train a separator without positive and negative samples"

inductive Fault where
  /-- A sum, difference or negation left its fixed width. -/
  | arithmetic
  /-- A quotient that does not exist. -/
  | division
  /-- Vectors of different lengths met. -/
  | dimension
  /-- More path predicates than a partition number has bits. -/
  | partitions
  /-- Pivoting went on longer than there are bases. -/
  | stalled
  deriving DecidableEq

inductive Failure where
  | error (e : Error)
  | fault (f : Fault)
  deriving DecidableEq

abbrev Result := Except Failure

namespace Result

instance decEq {α : Type} [DecidableEq α] : DecidableEq (Result α)
  | .ok a, .ok b => decidable_of_iff (a = b) (by simp)
  | .error e, .error f => decidable_of_iff (e = f) (by simp)
  | .ok _, .error _ => isFalse (by simp)
  | .error _, .ok _ => isFalse (by simp)

def orError {α : Type} (x : Option α) (e : Error) : Result α :=
  match x with
  | some a => .ok a
  | none => .error (.error e)

def orFault {α : Type} (x : Option α) (f : Fault) : Result α :=
  match x with
  | some a => .ok a
  | none => .error (.fault f)

end Result

/-- Computations on a state that may fail. -/
abbrev Task (S : Type) := ExceptT Failure (StateM S)

namespace Task

variable {S T : Type} {α : Type}

def ofResult (r : Result α) : Task S α := fun s => (r, s)

/-- Runs a task on a part of the state. -/
def on (get : S → T) (put : S → T → S) (x : Task T α) : Task S α := fun s =>
  let (r, t) := x (get s)
  (r, put s t)

end Task
end LoopInvariant
