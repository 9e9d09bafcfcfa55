import LoopInvariant.Duration
import LoopInvariant.Halfspace
import LoopInvariant.Partition
import LoopInvariant.Random
import LoopInvariant.Sample
import LoopInvariant.Separator

/-! Learning candidate invariants from classified states. The conjunctive learner cuts off the
negative states by half-spaces: it picks one at random, separates it from all positive ones, and
goes on with those that the separator still takes for positive. The disjunctive learner does so in
each part of the state space. -/
namespace LoopInvariant

/-- How a learner works. The clock gives the time passed at each of its readings. -/
structure Learner (τ : Type) where
  separator : Separator τ
  /-- Scales weights before they are rounded to integers. -/
  multiplier : Float
  clock : Nat → Duration := fun _ => ⟨0⟩

inductive Learned where
  /-- There is a counterexample among the samples, so that no invariant exists. -/
  | disproved
  | candidate (invariant : Expr) (halfspaces : List Halfspace)
  deriving DecidableEq

namespace Learner

structure State (τ : Type) where
  memory : τ
  random : Random
  trainings : Nat := 0
  /-- How often the clock was read. -/
  readings : Nat := 0
  /-- From this time on nothing is trained any more. -/
  deadline : Option Duration := none

abbrev Learning (τ : Type) := Task (State τ)

variable {σ τ : Type}

/-- Whether the deadline has passed. Without a deadline the clock is not read. -/
def expired (l : Learner τ) : Learning τ Bool := do
  let s ← get
  match s.deadline with
  | none => return false
  | some d =>
    set { s with readings := s.readings + 1 }
    return d.nanoseconds ≤ (l.clock s.readings).nanoseconds

def draw {α : Type} (x : Random.Drawing α) : Learning τ α := fun s =>
  let (a, random) := x s.random
  (.ok a, { s with random })

/-- Trainings that fail are not counted. -/
def train (l : Learner τ) (samples : List (Point × Label)) : Learning τ LinearModel := do
  let m ← (fun s =>
    let (m, memory) := l.separator.train samples s.memory
    (m, { s with memory }))
  modify fun s => { s with trainings := s.trainings + 1 }
  return m

/-- The element at an index of a nonempty list, and the others, of which the last one takes its
place. -/
def takeOut (p : Point) (ps : List Point) (i : Nat) : Point × List Point :=
  ((p :: ps).getD i p, ((p :: ps).set i (ps.getLastD p)).dropLast)

theorem length_takeOut (p : Point) (ps : List Point) (i : Nat) :
    (takeOut p ps i).2.length = ps.length := by simp [takeOut]

/-- Half-spaces that cut off all points still at work. -/
def cutOff (l : Learner τ) (positives : List (Point × Label)) (working : List Point) :
    Learning τ (List Halfspace) := do
  match working with
  | [] => return []
  | p :: ps =>
    if ← l.expired then throw (.error .deadline)
    let i ← draw (Random.index (ps.length + 1))
    let m ← l.train (positives ++ [((takeOut p ps i).1, .negative)])
    if (takeOut p ps i).2.all m.fits then
      let rest ← cutOff l positives ((takeOut p ps i).2.filter fun q => m.label q = .positive)
      return Halfspace.ofReal m.weights m.bias l.multiplier :: rest
    else throw (.fault .dimension)
  termination_by working.length
  decreasing_by
    have := List.length_filter_le (fun q => m.label q = .positive) (takeOut p ps i).2
    have := length_takeOut p ps i
    simp only [List.length_cons]
    omega

/-- A formula that holds at the positive points and at no negative one, as far as the separator
can tell them apart, with the half-spaces it is made of. -/
def separate (l : Learner τ) (positives negatives : List Point) (vars : List Var) :
    Learning τ (Expr × List Halfspace) := do
  if negatives.isEmpty then return (.bool true, [])
  if positives.isEmpty then return (.bool false, [])
  let hs ← l.cutOff (positives.map fun p => (p, .positive)) negatives
  let parts ← Task.ofResult (hs.mapM fun h => h.toExpr vars)
  return (.all parts, hs)

def conjunctive (l : Learner τ) (samples : SampleSet) (vars : List Var) : Learning τ Learned := do
  if !samples.counterexamples.isEmpty then return .disproved
  let (inv, hs) ← l.separate samples.positives samples.negatives vars
  return .candidate inv hs

/-- One part of the state space: its guard and the points in it. -/
structure Part where
  guard : Expr
  positives : List Point
  negatives : List Point

/-- A part where one kind of points is missing is not cut any further. -/
def separatePart (l : Learner τ) (loop : Loop) (p : Part) : Learning τ (Expr × List Halfspace) := do
  let (inv, hs) ←
    if p.positives.isEmpty || p.negatives.isEmpty then pure (.bool true, [])
    else l.separate p.positives p.negatives loop.plainVars
  return (.all [inv, loop.ofPre p.guard], hs)

/-- What a learner that also asks an oracle works on. -/
structure Bench (σ τ : Type) where
  oracle : Oracle.State σ
  learner : State τ

namespace Bench

def asking {α : Type} (x : Oracle.Asking σ α) : Task (Bench σ τ) α :=
  x.on Bench.oracle fun s oracle => { s with oracle }

def learning {α : Type} (x : Learning τ α) : Task (Bench σ τ) α :=
  x.on Bench.learner fun s learner => { s with learner }

end Bench

def disjunctive (l : Learner τ) (o : Oracle σ) (samples : SampleSet) (loop : Loop)
    (onCond : Bool) : Task (Bench σ τ) Learned := do
  if !samples.counterexamples.isEmpty then return .disproved
  let guards ← Task.ofResult (Partition.guards loop onCond)
  let positives ← Bench.asking (Partition.file o loop guards samples.positives)
  let negatives ← Bench.asking (Partition.file o loop guards samples.negatives)
  let parts := List.zipWith (fun g (pn : List Point × List Point) => Part.mk g pn.1 pn.2) guards
    (positives.zip negatives)
  let learned ← Bench.learning (parts.mapM (l.separatePart loop))
  return .candidate (.any (learned.map (·.1))) (learned.map (·.2)).flatten

end Learner
end LoopInvariant
