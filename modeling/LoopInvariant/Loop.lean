import LoopInvariant.Expr
import LoopInvariant.Failure

/-! The loop under analysis: assume the precondition, run the body while the condition holds, and
assert the postcondition. Its formulas speak of copies of the program variables before and after
one pass of the body; invariants speak of the plain variables. -/
namespace LoopInvariant

/-- A program variable with the indices of its copies before and after the body. -/
structure StateVar where
  name : String
  pre : Nat
  post : Nat
  deriving DecidableEq

namespace StateVar

def plain (v : StateVar) : Var := ⟨v.name, none⟩
def before (v : StateVar) : Var := ⟨v.name, some v.pre⟩
def after (v : StateVar) : Var := ⟨v.name, some v.post⟩

end StateVar

inductive Stage where
  | pre
  | post
  deriving DecidableEq

structure Loop where
  /-- The order of the variables is the order of coordinates. -/
  vars : List StateVar
  pre : Expr
  cond : Expr
  body : Expr
  post : Expr
  /-- Predicates over the state before the body that tell its paths apart. -/
  paths : List Expr := []

namespace Loop

def names (l : Loop) : List String := l.vars.map (·.name)
def dim (l : Loop) : Nat := l.vars.length
def plainVars (l : Loop) : List Var := l.vars.map StateVar.plain

/-- Moves a formula from one copy of the variables to another. -/
def move (l : Loop) (source target : StateVar → Var) (e : Expr) : Expr :=
  e.rename (Var.replace (l.vars.map fun v => (source v, target v)))

def toPre (l : Loop) : Expr → Expr := l.move StateVar.plain StateVar.before
def toPost (l : Loop) : Expr → Expr := l.move StateVar.plain StateVar.after
def preToPost (l : Loop) : Expr → Expr := l.move StateVar.before StateVar.after
def ofPre (l : Loop) : Expr → Expr := l.move StateVar.before StateVar.plain

def copy (stage : Stage) (v : StateVar) : Var :=
  match stage with
  | .pre => v.before
  | .post => v.after

/-- The formula that says that the copies at a stage are at a point. -/
def state (l : Loop) (p : Point) (stage : Stage) : Result Expr :=
  if p.dim = l.dim then
    .ok (.all (List.zipWith (fun v x => .cmp .eq (.var (copy stage v)) (.int x)) l.vars p.coords))
  else .error (.error (.dimension p p.dim l.dim))

end Loop
end LoopInvariant
