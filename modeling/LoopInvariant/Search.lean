import LoopInvariant.Model
import LoopInvariant.NormalForm
import LoopInvariant.Tableau

/-! Integer satisfiability of formulas. Disjunctions are explored depth first, every partial
conjunction is pruned by its rational feasibility, and complete conjunctions are finished by branch
and bound. Each feasibility test is one unit of a budget. -/
namespace LoopInvariant

inductive Answer where
  | sat (m : Model)
  | unsat
  /-- The budget did not suffice. -/
  | unknown
  deriving DecidableEq

namespace Search

/-- What ends a search before its answer. -/
inductive Halt where
  | exhausted
  | failed (f : Failure)
  deriving DecidableEq

/-- A search that spends the number of feasibility tests it is given. -/
abbrev Budgeted := ExceptT Halt (StateM Nat)

abbrev Solution := List (Var × Int64)

/-- One feasibility test. -/
def feasible? (cs : List Constraint) : Budgeted (Option (List (Var × Rat))) := do
  match ← get with
  | 0 => throw .exhausted
  | left + 1 =>
    set left
    match Constraint.solve? cs with
    | .ok answer => return answer
    | .error f => throw (.failed f)

/-- The constraints with `x` at most the floor of `q`, and with `x` above it. -/
def split (cs : List Constraint) (x : Var) (q : Rat) :
    Result (List Constraint × List Constraint) := do
  let floor ← Result.orError (Word.ofInt? q.floor) (.overflow "branching")
  let negated ← Result.orFault (Word.neg? floor) .arithmetic
  let above ← (← (LinearForm.ofVar x).shift negated).shift (-1)
  let below ← (← (LinearForm.ofVar x).scale (-1)).shift floor
  return (cs ++ [⟨below, .nonneg⟩], cs ++ [⟨above, .nonneg⟩])

/-- Branch and bound over a stack of conjunctions, with the tests left as first argument. -/
def branchAndBound : Nat → List (List Constraint) → Except Halt (Option Solution) × Nat
  | left, [] => (.ok none, left)
  | 0, _ :: _ => (.error .exhausted, 0)
  | left + 1, cs :: rest =>
    match Constraint.solve? cs with
    | .error f => (.error (.failed f), left)
    | .ok none => branchAndBound left rest
    | .ok (some xs) =>
      match Tableau.fractional? xs with
      | none =>
        match Tableau.integers xs with
        | .ok vs => (.ok (some vs), left)
        | .error f => (.error (.failed f), left)
      | some (x, q) =>
        match split cs x q with
        | .ok (down, up) => branchAndBound left (down :: up :: rest)
        | .error f => (.error (.failed f), left)

def integerPoint (cs : List Constraint) : Budgeted (Option Solution) :=
  fun left => branchAndBound left [cs]

end Search

namespace NormalForm

mutual
/-- Bounds the work left in a formula: a join counts for more than its parts. -/
def weight : NormalForm → Nat
  | .const _ | .atom _ => 1
  | .join _ args => weights args + 2
def weights : List NormalForm → Nat
  | [] => 0
  | n :: ns => weight n + weights ns
end

theorem weight_pos (n : NormalForm) : 0 < weight n := by cases n <;> simp [weight]

theorem weights_append (xs ys : List NormalForm) :
    weights (xs ++ ys) = weights xs + weights ys := by
  induction xs with
  | nil => simp [weights]
  | cons x xs ih => simp [weights, ih, Nat.add_assoc]

theorem weights_reverse (xs : List NormalForm) : weights xs.reverse = weights xs := by
  induction xs with
  | nil => rfl
  | cons x xs ih => simp [weights_append, weights, ih, Nat.add_comm]

/-- The weight of disjunctions that wait for a choice. -/
def choicesWeight : List (List NormalForm) → Nat
  | [] => 0
  | alts :: rest => weights alts + 1 + choicesWeight rest

end NormalForm

namespace Search

open NormalForm

mutual
/-- Extends the constraints by the pending formulas, the last part of a conjunction first, and then
by one alternative for each disjunction met, the latest one first. -/
def explore (cs : List Constraint) (pending : List NormalForm)
    (choices : List (List NormalForm)) : Budgeted (Option Solution) :=
  match pending with
  | [] =>
    match choices with
    | [] => integerPoint cs
    | alts :: rest => firstOf cs alts rest
  | .const true :: rest => explore cs rest choices
  | .const false :: _ => return none
  | .atom c :: rest => do
    match ← feasible? (cs ++ [c]) with
    | none => return none
    | some _ => explore (cs ++ [c]) rest choices
  | .join .and args :: rest => explore cs (args.reverse ++ rest) choices
  | .join .or args :: rest => explore cs rest (args :: choices)
  termination_by 2 * (weights pending + choicesWeight choices)
  decreasing_by
    all_goals simp only [weights, weight, weights_append, weights_reverse, choicesWeight]; omega
/-- The first solution that some alternative leads to. -/
def firstOf (cs : List Constraint) (alts : List NormalForm)
    (choices : List (List NormalForm)) : Budgeted (Option Solution) :=
  match alts with
  | [] => return none
  | a :: rest => do
    match ← explore cs [a] choices with
    | some s => return some s
    | none => firstOf cs rest choices
  termination_by 2 * (weights alts + choicesWeight choices) + 1
  decreasing_by
    all_goals simp only [weights]; have := weight_pos a; omega
end

/-- The answer for a formula, and how much of the budget is left. -/
def run (f : Expr) (budget : Nat) : Result Answer × Nat :=
  match f.normalForm true with
  | .error e => (.error e, budget)
  | .ok n =>
    match explore [] [n] [] budget with
    | (.ok (some s), left) =>
      (.ok (.sat ((Model.ofList (f.vars.map fun v => (v, 0))).extend s)), left)
    | (.ok none, left) => (.ok .unsat, left)
    | (.error .exhausted, left) => (.ok .unknown, left)
    | (.error (.failed e), left) => (.error e, left)

end Search
end LoopInvariant
