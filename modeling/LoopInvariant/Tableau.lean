import LoopInvariant.LinearForm

/-! Rational feasibility of a list of linear constraints. Every constraint gets a slack column that
carries its bound, the rows express basic columns by the others, and bound violations are repaired
by pivoting. Both the leaving and the entering column are the first that will do. -/
namespace LoopInvariant

/-- A system over `n` variable columns followed by `m` slack columns, with `m` rows. -/
structure Tableau (n m : Nat) where
  /-- The column that each row defines. -/
  basic : Vector (Fin (n + m)) m
  /-- Coefficients of the defined column over all columns, zero at the basic ones. -/
  rows : Vector (Vector Rat (n + m)) m
  /-- Marks the columns that some row defines. -/
  isBasic : Vector Bool (n + m)
  lower : Vector (Option Rat) (n + m)
  upper : Vector (Option Rat) (n + m)
  value : Vector Rat (n + m)

namespace Tableau

/-! ### The first tableau -/

/-- Variables in order of first occurrence. -/
def columns (cs : List Constraint) : List Var :=
  (cs.flatMap fun c => c.form.terms.map (·.1)).foldl
    (fun seen v => if v ∈ seen then seen else seen ++ [v]) []

def coefficient (l : LinearForm) (v : Var) : Rat :=
  (l.terms.filter (·.1 = v)).foldl (fun s t => s + (t.2.toInt : Rat)) 0

/-- What the variable part of a constraint is compared with. -/
def bound (c : Constraint) : Rat := -(c.form.constant.toInt : Rat)

/-- All slacks basic and all columns at zero. -/
def start (vars : List Var) (cs : List Constraint) : Tableau vars.length cs.length where
  basic := .ofFn fun r => r.natAdd vars.length
  rows := .ofFn fun r =>
    .ofFn (Fin.addCases (fun v => coefficient (cs.get r).form (vars.get v)) (fun _ => 0))
  isBasic := .ofFn (Fin.addCases (fun _ => false) (fun _ => true))
  lower := .ofFn (Fin.addCases (fun _ => none) (fun s => some (bound (cs.get s))))
  upper := .ofFn (Fin.addCases (fun _ => none) (fun s =>
    match (cs.get s).relation with
    | .nonneg => none
    | .zero => some (bound (cs.get s))))
  value := .replicate _ 0

/-- Every bound has to be a 64-bit integer. -/
def ofConstraints (cs : List Constraint) : Result (Tableau (columns cs).length cs.length) :=
  if cs.all fun c => (Word.neg? c.form.constant).isSome then .ok (start (columns cs) cs)
  else .error (.fault .arithmetic)

variable {n m : Nat}

/-! ### Repair -/

def entry (t : Tableau n m) (r : Fin m) (j : Fin (n + m)) : Rat := (t.rows.get r).get j

/-- The row that defines a column. -/
def rowOf? (t : Tableau n m) (j : Fin (n + m)) : Option (Fin m) :=
  (List.finRange m).find? fun r => t.basic.get r = j

def canIncrease (t : Tableau n m) (j : Fin (n + m)) : Bool :=
  match t.upper.get j with
  | some u => t.value.get j < u
  | none => true

def canDecrease (t : Tableau n m) (j : Fin (n + m)) : Bool :=
  match t.lower.get j with
  | some l => l < t.value.get j
  | none => true

/-- A row whose column is out of bounds, and the bound it should move to. -/
structure Violation (m : Nat) where
  row : Fin m
  /-- Whether the column is below its lower bound, and not above its upper one. -/
  below : Bool
  target : Rat

/-- The bound that a column violates, the lower one first. -/
def violatedBound? (t : Tableau n m) (j : Fin (n + m)) : Option (Bool × Rat) :=
  let above? := (t.upper.get j).bind fun u => if u < t.value.get j then some (false, u) else none
  match t.lower.get j with
  | some l => if t.value.get j < l then some (true, l) else above?
  | none => above?

/-- The first basic column out of its bounds. -/
def leaving? (t : Tableau n m) : Option (Violation m) :=
  (List.finRange (n + m)).findSome? fun j => do
    let (below, target) ← t.violatedBound? j
    return ⟨← t.rowOf? j, below, target⟩

/-- Whether moving column `j` can bring the column of a row in the wanted direction. -/
def helps (t : Tableau n m) (r : Fin m) (below : Bool) (j : Fin (n + m)) : Bool :=
  let a := t.entry r j
  !t.isBasic.get j && a ≠ 0 &&
    if below = decide (0 < a) then t.canIncrease j else t.canDecrease j

def entering? (t : Tableau n m) (v : Violation m) : Option (Fin (n + m)) :=
  (List.finRange (n + m)).find? (t.helps v.row v.below)

/-- Solves row `r` for column `j`. -/
def solveFor (t : Tableau n m) (r : Fin m) (j : Fin (n + m)) : Vector Rat (n + m) :=
  let a := t.entry r j
  .ofFn fun l => if l = t.basic.get r then 1 / a else if l = j then 0 else -t.entry r l / a

/-- Makes column `j` basic in row `r`, and moves the column that leaves to `target`. -/
def pivot (t : Tableau n m) (r : Fin m) (j : Fin (n + m)) (target : Rat) : Tableau n m :=
  let b := t.basic.get r
  let theta := (target - t.value.get b) / t.entry r j
  let solved := t.solveFor r j
  { t with
    basic := t.basic.set r j r.isLt
    rows := .ofFn fun k =>
      if k = r then solved
      else
        let f := t.entry k j
        if f = 0 then t.rows.get k
        else .ofFn fun l => if l = j then 0 else t.entry k l + f * solved.get l
    isBasic := (t.isBasic.set b false b.isLt).set j true j.isLt
    value := .ofFn fun l =>
      if l = b then target
      else if l = j then t.value.get j + theta
      else
        match t.rowOf? l with
        | some k => t.value.get l + t.entry k j * theta
        | none => t.value.get l }

/-- The answer, or a tableau with the first violation repaired. -/
def step (t : Tableau n m) : Bool ⊕ Tableau n m :=
  match t.leaving? with
  | none => .inl true
  | some v =>
    match t.entering? v with
    | none => .inl false
    | some j => .inr (t.pivot v.row j v.target)

def repair : Nat → Tableau n m → Option (Bool × Tableau n m)
  | 0, _ => none
  | fuel + 1, t =>
    match t.step with
    | .inl feasible => some (feasible, t)
    | .inr next => repair fuel next

/-- Whether the bounds can all be met, and the last tableau. No basis comes twice, so that there
are fewer pivots than sets of columns. -/
def check (t : Tableau n m) : Result (Bool × Tableau n m) :=
  .orFault (repair (Nat.pow 2 (n + m)) t) .stalled

/-! ### Reading a solution -/

/-- The values of the variable columns. -/
def solution (vars : List Var) (t : Tableau n m) : List (Var × Rat) := vars.zip t.value.toList

/-- The first variable with a value that is no integer. -/
def fractional? (xs : List (Var × Rat)) : Option (Var × Rat) := xs.find? (·.2.den ≠ 1)

/-- The values rounded towards zero. -/
def integers (xs : List (Var × Rat)) : Result (List (Var × Int64)) :=
  xs.mapM fun x => do
    let n ← Result.orError (Word.ofInt? (x.2.num.tdiv x.2.den)) (.overflow "reading a model")
    return (x.1, n)

end Tableau

/-- A rational solution of the constraints, if there is one. -/
def Constraint.solve? (cs : List Constraint) : Result (Option (List (Var × Rat))) := do
  let t ← Tableau.ofConstraints cs
  let (feasible, t) ← t.check
  return if feasible then some (t.solution (Tableau.columns cs)) else none

end LoopInvariant
