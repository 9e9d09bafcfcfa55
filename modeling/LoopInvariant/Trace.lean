import LoopInvariant.Loop
import LoopInvariant.Sample
import LoopInvariant.Solver

/-! Running a loop from a given state by queries alone, and the class that the run gives the state.
-/
namespace LoopInvariant.Trace

open Oracle

variable {σ : Type}

/-- Runs on from the current state for at most `left` passes, with the states before it in `seen`,
the latest first. Gives all states of the run, and whether it got stuck: within the loop condition,
but without a successor. -/
def walk (o : Oracle σ) (l : Loop) (start : Point) (limit : Nat) (left : Nat) (seen : List Point)
    (current : Point) : Asking σ (List Point × Bool) := do
  let state ← Task.ofResult (l.state current .pre)
  if ← o.isSat (.all [l.cond, state]) then
    match left with
    | 0 => throw (.error (.unrollLimit start limit))
    | left + 1 =>
      match ← o.model? (.all [l.body, state]) with
      | none => return ((current :: seen).reverse, true)
      | some m => walk o l start limit left (current :: seen) (m.project l.names .highest)
  else return ((current :: seen).reverse, false)

/-- The class of a state and the states of its run, itself first. -/
def classify (o : Oracle σ) (l : Loop) (start : Point) (limit : Nat) :
    Asking σ (Class × List Point) := do
  let state ← Task.ofResult (l.state start .pre)
  let inPre ← o.isSat (.all [l.pre, state])
  let (states, stuck) ← walk o l start limit limit [] start
  let exit ← Task.ofResult (l.state (states.getLastD start) .post)
  let inPost ← o.isSat (.all [l.post, exit])
  return (.ofFlags inPre stuck inPost, states)

end LoopInvariant.Trace
