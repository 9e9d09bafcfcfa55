import LoopInvariant.Failure
import LoopInvariant.Search

/-! Asking a solver: a query starts with a given budget and is repeated with larger ones while the
answer is unknown. -/
namespace LoopInvariant

/-- A decision procedure for formulas within a budget. It may keep state between its calls. -/
structure Solver (σ : Type) where
  check : Expr → Nat → StateM σ (Result Answer)

/-- The search above, which keeps nothing. -/
def Solver.builtIn : Solver Unit := ⟨fun f budget => return (Search.run f budget).1⟩

/-- A solver and the budgets it is asked with. -/
structure Oracle (σ : Type) where
  solver : Solver σ
  budget : Nat
  retries : Nat
  growth : Nat

namespace Oracle

structure State (σ : Type) where
  memory : σ
  queries : Nat := 0

/-- A computation that asks an oracle. Its queries count also when it fails. -/
abbrev Asking (σ : Type) := Task (State σ)

/-- Budgets have 64 bits. -/
def maxBudget : Nat := 18446744073709551615

variable {σ : Type}

/-- One call of the solver. -/
def consult (o : Oracle σ) (f : Expr) (budget : Nat) : Asking σ Answer := fun s =>
  let (answer, memory) := o.solver.check f budget s.memory
  (answer, { s with memory })

/-- Up to `more` further calls after the first, with growing budgets. -/
def persist (o : Oracle σ) (f : Expr) (more budget : Nat) : Asking σ (Option Model) := do
  match ← o.consult f budget with
  | .sat m => return some m
  | .unsat => return none
  | .unknown =>
    match more with
    | 0 => throw (.error (.solverUnknown (o.retries + 1)))
    | more + 1 => o.persist f more (min (budget * o.growth) maxBudget)

/-- A model of the formula, or nothing if it has none. -/
def model? (o : Oracle σ) (f : Expr) : Asking σ (Option Model) := do
  modify fun s => { s with queries := s.queries + 1 }
  o.persist f o.retries o.budget

def isSat (o : Oracle σ) (f : Expr) : Asking σ Bool := do return (← o.model? f).isSome

end Oracle
end LoopInvariant
