import LoopInvariant.Word

/-! States sorted by what runs of the loop from them show. -/
namespace LoopInvariant

inductive Class where
  /-- Starts in the precondition and leaves the loop outside the postcondition. -/
  | counterexample
  /-- Starts in the precondition and leaves the loop in the postcondition. -/
  | positive
  /-- Starts outside the precondition and leaves the loop outside the postcondition. -/
  | negative
  | undetermined
  /-- Not yet classified. -/
  | unknown
  deriving DecidableEq

namespace Class

def all : List Class := [counterexample, positive, negative, undetermined, unknown]

/-- The class of a run, by whether it starts in the precondition, ends within the loop condition,
and ends in the postcondition. -/
def ofFlags (pre cond post : Bool) : Class :=
  match pre, cond, post with
  | true, false, false => counterexample
  | true, false, true => positive
  | false, false, false => negative
  | _, _, _ => undetermined

def text : Class → String
  | counterexample => "counterexample"
  | positive => "positive"
  | negative => "negative"
  | undetermined => "undetermined"
  | unknown => "unknown"

end Class

/-- Points by class, each in order of arrival. A point may be in more than one place. -/
structure SampleSet where
  counterexamples : List Point := []
  positives : List Point := []
  negatives : List Point := []
  undetermined : List Point := []
  unknown : List Point := []
  deriving DecidableEq

namespace SampleSet

def get (s : SampleSet) : Class → List Point
  | .counterexample => s.counterexamples
  | .positive => s.positives
  | .negative => s.negatives
  | .undetermined => s.undetermined
  | .unknown => s.unknown

def extend (s : SampleSet) (c : Class) (ps : List Point) : SampleSet :=
  match c with
  | .counterexample => { s with counterexamples := s.counterexamples ++ ps }
  | .positive => { s with positives := s.positives ++ ps }
  | .negative => { s with negatives := s.negatives ++ ps }
  | .undetermined => { s with undetermined := s.undetermined ++ ps }
  | .unknown => { s with unknown := s.unknown ++ ps }

def add (s : SampleSet) (c : Class) (p : Point) : SampleSet := s.extend c [p]

/-- The points that wait for a class, and the rest. -/
def takeUnknown (s : SampleSet) : List Point × SampleSet := (s.unknown, { s with unknown := [] })

def size (s : SampleSet) : Nat :=
  s.counterexamples.length + s.positives.length + s.negatives.length + s.undetermined.length
    + s.unknown.length

end SampleSet
end LoopInvariant
