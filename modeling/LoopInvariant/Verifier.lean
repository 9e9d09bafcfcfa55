import LoopInvariant.Candidate
import LoopInvariant.MaxMargin
import LoopInvariant.Obligation
import LoopInvariant.Simplify
import LoopInvariant.Trace
import LoopInvariant.Verdict

/-! Verification by refinement. Candidates are learned from classified states and checked; a state
that refutes a candidate, and its reflections in the half-spaces of the candidate, are the next
states to classify. -/
namespace LoopInvariant

/-! ### What a user can choose -/

/-- The shape of candidate invariants. -/
inductive Strategy where
  | conjunctive
  /-- One conjunction for each part of the state space. -/
  | disjunctive (onCond : Bool)
  deriving DecidableEq

structure Settings where
  initialSamples : Nat := 200
  /-- Coordinates of the first samples are at least this. -/
  sampleLow : Int64 := -20
  /-- Coordinates of the first samples are below this. -/
  sampleHigh : Int64 := 20
  /-- How far a state on a boundary is moved away from it. -/
  boundaryMargin : Int64 := 20
  /-- Scales weights before they are rounded to integers. -/
  multiplier : Float := 10
  seed : UInt64 := 42
  /-- Passes of the loop in one run. -/
  unrollLimit : Nat := 10000
  /-- Candidates to learn, or no limit. -/
  maxRounds : Option Nat := some 500
  timeout : Option Duration := none
  solverBudget : Nat := 20000
  solverRetries : Nat := 3
  budgetGrowth : Nat := 4
  strategy : Strategy := .conjunctive
  margin : MaxMargin.Settings := {}

/-! ### Verifying -/

structure Verifier (σ τ : Type) where
  settings : Settings
  solver : Solver σ
  separator : Separator τ

namespace Verifier

open Learner (Bench)

def builtIn (settings : Settings) : Verifier Unit Unit :=
  ⟨settings, .builtIn, .maxMargin settings.margin⟩

variable {σ τ : Type}

/-- What lasts from one verification to the next. -/
structure State (σ τ : Type) where
  solver : Oracle.State σ
  separator : τ
  trainings : Nat := 0
  /-- The deadline of the last verification. -/
  deadline : Option Duration := none

/-- One verification under way. -/
structure Run (σ τ : Type) where
  bench : Bench σ τ
  samples : SampleSet := {}
  rounds : Nat := 0
  classified : Nat := 0

abbrev Running (σ τ : Type) := Task (Run σ τ)

def working {α : Type} (x : Task (Bench σ τ) α) : Running σ τ α :=
  x.on Run.bench fun s bench => { s with bench }

def oracle (v : Verifier σ τ) : Oracle σ where
  solver := v.solver
  budget := v.settings.solverBudget
  retries := v.settings.solverRetries
  growth := v.settings.budgetGrowth

def learner (v : Verifier σ τ) (clock : Nat → Duration) : Learner τ where
  separator := v.separator
  multiplier := v.settings.multiplier
  clock := clock

/-- Random points for a start. -/
def firstSamples (s : Settings) (dim : Nat) : Random.Drawing (List Point) :=
  (List.range s.initialSamples).mapM fun _ => do
    return ⟨← (List.range dim).mapM fun _ => Random.integer s.sampleLow s.sampleHigh⟩

/-- Follows the runs from the given points. -/
def classifyEach (v : Verifier σ τ) (loop : Loop) : List Point → Running σ τ Unit
  | [] => return ()
  | p :: ps => do
    let (c, states) ←
      working (Bench.asking (Trace.classify v.oracle loop p v.settings.unrollLimit))
    modify fun r => { r with samples := r.samples.extend c states, classified := r.classified + 1 }
    classifyEach v loop ps

/-- Classifies all points that wait for it, unless time is up. -/
def classifyUnknown (v : Verifier σ τ) (clock : Nat → Duration) (loop : Loop) :
    Running σ τ Unit := do
  if ← working (Bench.learning (v.learner clock).expired) then throw (.error .deadline)
  let r ← get
  let (points, samples) := r.samples.takeUnknown
  set { r with samples }
  classifyEach v loop points

def learn (v : Verifier σ τ) (clock : Nat → Duration) (loop : Loop) : Running σ τ Learned := do
  let samples := (← get).samples
  match v.settings.strategy with
  | .conjunctive =>
    working (Bench.learning ((v.learner clock).conjunctive samples loop.plainVars))
  | .disjunctive onCond =>
    working ((v.learner clock).disjunctive v.oracle samples loop onCond)

/-- The reflections of a state in several half-spaces. -/
def reflections (hs : List Halfspace) (p : Point) (margin : Int64) : Result (List Point) :=
  List.flatten <$> hs.mapM fun h => h.reflect p margin

/-- A count of rounds has 64 bits. -/
def maxCount : Nat := 18446744073709551615

/-- Rounds until a verdict, at most `left` of them. -/
def refine (v : Verifier σ τ) (clock : Nat → Duration) (loop : Loop) (left : Nat) :
    Running σ τ Verdict := do
  v.classifyUnknown clock loop
  match left with
  | 0 =>
    match v.settings.maxRounds with
    | some n => return .inconclusive (.roundLimit n)
    | none => throw (.fault .arithmetic)
  | left + 1 =>
    modify fun r => { r with rounds := r.rounds + 1 }
    match ← v.learn clock loop with
    | .disproved => return .disproved
    | .candidate inv hs =>
      match ← working (Bench.asking (Obligation.check v.oracle loop inv)) with
      | .valid => return .invariant inv.simplify
      | .invalid _ witness =>
        let images ← Task.ofResult (reflections hs witness v.settings.boundaryMargin)
        modify fun r => { r with samples := r.samples.extend .unknown (witness :: images) }
        refine v clock loop left

/-- What has to hold before anything is done. -/
def admissible (s : Settings) (loop : Loop) : Except Error Unit := do
  if s.sampleLow ≥ s.sampleHigh then throw (.settings "sample_low must be below sample_high")
  if s.budgetGrowth = 0 then throw (.settings "budget_growth must be positive")
  if loop.dim = 0 then throw (.settings "a loop needs at least one state variable")

/-- Turns errors that only mean giving up into verdicts. -/
def conclude (timeout : Option Duration) : Result Verdict → Result Verdict
  | .error (.error e) =>
    match Reason.ofError? timeout e with
    | some r => .ok (.inconclusive r)
    | none => .error (.error e)
  | other => other

/-- The first state of a verification, with fresh samples and random numbers and a deadline of its
own. -/
def begin (v : Verifier σ τ) (loop : Loop) (s : State σ τ) : Run σ τ :=
  let (points, random) := firstSamples v.settings loop.dim (Random.ofSeed v.settings.seed)
  let learner : Learner.State τ :=
    { memory := s.separator, random, trainings := s.trainings, deadline := v.settings.timeout }
  { bench := ⟨s.solver, learner⟩
    samples := { unknown := points } }

def verify (v : Verifier σ τ) (loop : Loop) (clock : Nat → Duration := fun _ => ⟨0⟩) :
    Task (State σ τ) Report := fun s =>
  match admissible v.settings loop with
  | .error e => (.error (.error e), s)
  | .ok () =>
    let rounds := v.settings.maxRounds.getD maxCount
    let (result, r) := v.refine clock loop rounds (v.begin loop s)
    let l := r.bench.learner
    let final : State σ τ := ⟨r.bench.oracle, l.memory, l.trainings, l.deadline⟩
    let stats : Stats :=
      { rounds := r.rounds
        classified := r.classified
        samples := r.samples.size
        queries := final.solver.queries - s.solver.queries
        trainings := final.trainings - s.trainings
        elapsed := clock l.readings }
    ((fun verdict => ⟨verdict, stats⟩) <$> conclude v.settings.timeout result, final)

end Verifier
end LoopInvariant
