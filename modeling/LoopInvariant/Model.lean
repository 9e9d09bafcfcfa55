import LoopInvariant.Expr
import LoopInvariant.Failure

/-! Finite integer assignments, and the evaluator on them. -/
namespace LoopInvariant

/-- Values of finitely many variables, in increasing order of variables. -/
structure Model where
  entries : List (Var × Int64)
  deriving DecidableEq, Inhabited

/-- Which copy of a name a projection reads. -/
inductive Pick where
  | lowest
  | highest
  deriving DecidableEq

namespace Model

def empty : Model := ⟨[]⟩

def insertEntry (v : Var) (n : Int64) : List (Var × Int64) → List (Var × Int64)
  | [] => [(v, n)]
  | (w, m) :: rest =>
    match compare v w with
    | .lt => (v, n) :: (w, m) :: rest
    | .eq => (w, n) :: rest
    | .gt => (w, m) :: insertEntry v n rest

def insert (m : Model) (v : Var) (n : Int64) : Model := ⟨insertEntry v n m.entries⟩

/-- Later entries replace earlier ones. -/
def extend (m : Model) (pairs : List (Var × Int64)) : Model :=
  pairs.foldl (fun acc p => acc.insert p.1 p.2) m

def ofList (pairs : List (Var × Int64)) : Model := empty.extend pairs

def vars (m : Model) : List Var := m.entries.map (·.1)

def get? (m : Model) (v : Var) : Option Int64 := (m.entries.find? (·.1 = v)).map (·.2)

/-- Variables outside the model read as zero. -/
def value (m : Model) (v : Var) : Int64 := (m.get? v).getD 0

/-- One coordinate for each name, from the copy with the lowest or highest index among those in
the model, and zero where there is none. -/
def project (m : Model) (names : List String) (pick : Pick) : Point :=
  ⟨names.map fun name =>
    let copies := m.entries.filter (·.1.name = name)
    let copy? := match pick with
      | .lowest => copies.head?
      | .highest => copies.getLast?
    (copy?.map (·.2)).getD 0⟩

def text (m : Model) : String :=
  "\x7b" ++ ", ".intercalate (m.entries.map fun e => e.1.text ++ " = " ++ Word.text e.2) ++ "\x7d"

private def exact (n : Option Int64) : Result Int64 :=
  .orError n (.overflow "evaluating a term")

mutual
def evalInt (m : Model) : Expr → Result Int64
  | .int n => .ok n
  | .var v => .ok (m.value v)
  | .neg a => do exact (Word.neg? (← evalInt m a))
  | .arith op a b => do
    let x ← evalInt m a
    let y ← evalInt m b
    exact (op.result? x y)
  | .ite c t e => do if ← evalBool m c then evalInt m t else evalInt m e
  | e@(.bool _) | e@(.not _) | e@(.implies ..) | e@(.cmp ..) | e@(.join ..) =>
    .error (.error (.sort .term e.text))
/-- Parts that cannot change the answer are not evaluated. -/
def evalBool (m : Model) : Expr → Result Bool
  | .bool b => .ok b
  | .not a => do return !(← evalBool m a)
  | .implies a b => do if ← evalBool m a then evalBool m b else return true
  | .cmp op a b => do
    let x ← evalInt m a
    let y ← evalInt m b
    return op.holds x.toInt y.toInt
  | .join c args => evalJoin m c args
  | .ite c t e => do if ← evalBool m c then evalBool m t else evalBool m e
  | e@(.int _) | e@(.var _) | e@(.neg _) | e@(.arith ..) =>
    .error (.error (.sort .formula e.text))
def evalJoin (m : Model) (c : Connective) : List Expr → Result Bool
  | [] => .ok c.unit
  | a :: as => do
    let b ← evalBool m a
    if b = c.unit then evalJoin m c as else return b
end

end Model
end LoopInvariant
