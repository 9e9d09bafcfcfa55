import LoopInvariant.Loop
import LoopInvariant.Solver

/-! The conditions under which a formula is an invariant that proves the loop correct. Each is
stated as a formula that must not be satisfiable. -/
namespace LoopInvariant

inductive Obligation where
  | initiation
  | consecution
  | exit
  deriving DecidableEq

inductive Validity where
  | valid
  /-- The first condition that fails, and a state before the body where it does. -/
  | invalid (failing : Obligation) (witness : Point)
  deriving DecidableEq

namespace Obligation

def all : List Obligation := [initiation, consecution, exit]

def text : Obligation → String
  | initiation => "initiation"
  | consecution => "consecution"
  | exit => "exit"

/-- The formula that holds where the obligation fails. -/
def violation (l : Loop) (inv : Expr) : Obligation → Expr
  | initiation => .all [l.pre, .not (l.toPre inv)]
  | consecution => .all [l.cond, l.body, l.toPre inv, .not (l.toPost inv)]
  | exit => .all [l.toPost inv, .not (l.preToPost l.cond), .not l.post]

variable {σ : Type}

/-- Looks for the first violation. -/
def checkEach (o : Oracle σ) (l : Loop) (inv : Expr) : List Obligation → Oracle.Asking σ Validity
  | [] => return .valid
  | c :: rest => do
    match ← o.model? (violation l inv c) with
    | some m => return .invalid c (m.project l.names .lowest)
    | none => checkEach o l inv rest

def check (o : Oracle σ) (l : Loop) (inv : Expr) : Oracle.Asking σ Validity :=
  checkEach o l inv all

end Obligation
end LoopInvariant
