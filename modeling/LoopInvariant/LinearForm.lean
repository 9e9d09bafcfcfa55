import LoopInvariant.Expr
import LoopInvariant.Failure

/-! Integer combinations of variables plus a constant, and constraints of them against zero. -/
namespace LoopInvariant

/-- The sum of the terms and the constant. The terms are in increasing order of variables and
have no zero coefficient when the form is made by the operations below. -/
structure LinearForm where
  terms : List (Var × Int64)
  constant : Int64
  deriving DecidableEq, Inhabited

namespace LinearForm

def const (c : Int64) : LinearForm := ⟨[], c⟩
def ofVar (v : Var) : LinearForm := ⟨[(v, 1)], 0⟩

def isConst (l : LinearForm) : Bool := l.terms.isEmpty

def coeffs (l : LinearForm) : List Int64 := l.terms.map (·.2)

/-- Adds one term at its place. -/
def insertTerm (v : Var) (a : Int64) : List (Var × Int64) → Option (List (Var × Int64))
  | [] => some [(v, a)]
  | (w, b) :: rest =>
    match compare v w with
    | .lt => some ((v, a) :: (w, b) :: rest)
    | .eq => (fun c => (w, c) :: rest) <$> Word.add? b a
    | .gt => ((w, b) :: ·) <$> insertTerm v a rest

def addTerms (xs : List (Var × Int64)) : List (Var × Int64) → Option (List (Var × Int64))
  | [] => some xs
  | (v, a) :: rest => do addTerms (← insertTerm v a xs) rest

def add? (l k : LinearForm) : Option LinearForm := do
  let terms ← addTerms l.terms k.terms
  let constant ← Word.add? l.constant k.constant
  return ⟨terms.filter (·.2 ≠ 0), constant⟩

def scaleTerms (k : Int64) : List (Var × Int64) → Option (List (Var × Int64))
  | [] => some []
  | (v, a) :: rest => do
    let b ← Word.mul? a k
    return (v, b) :: (← scaleTerms k rest)

def scale? (l : LinearForm) (k : Int64) : Option LinearForm :=
  if k = 0 then some (const 0)
  else do
    let terms ← scaleTerms k l.terms
    let constant ← Word.mul? l.constant k
    return ⟨terms, constant⟩

def add (l k : LinearForm) : Result LinearForm := .orError (l.add? k) (.overflow "adding terms")

def scale (l : LinearForm) (k : Int64) : Result LinearForm :=
  .orError (l.scale? k) (.overflow "scaling terms")

def sub (l k : LinearForm) : Result LinearForm := do l.add (← k.scale (-1))

def shift (l : LinearForm) (d : Int64) : Result LinearForm := l.add (const d)

def text (l : LinearForm) : String :=
  String.join (l.terms.map fun t => Word.text t.2 ++ "*" ++ t.1.text ++ " + ")
    ++ Word.text l.constant

end LinearForm

inductive Relation where
  /-- At least zero. -/
  | nonneg
  | zero
  deriving DecidableEq

def Relation.holds (r : Relation) (n : Int) : Bool :=
  match r with
  | nonneg => 0 ≤ n
  | zero => n = 0

structure Constraint where
  form : LinearForm
  relation : Relation
  deriving DecidableEq

namespace Constraint

def text (c : Constraint) : String :=
  match c.relation with
  | .nonneg => c.form.text ++ " >= 0"
  | .zero => c.form.text ++ " == 0"

end Constraint
end LoopInvariant
