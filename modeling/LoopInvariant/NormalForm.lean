import LoopInvariant.Expr
import LoopInvariant.LinearForm

/-! Formulas without negation over linear constraints. Strict comparisons are shifted by one, which
is exact over the integers, and integer terms with conditionals are split into guarded cases. -/
namespace LoopInvariant

inductive NormalForm where
  | const (b : Bool)
  | atom (c : Constraint)
  | join (c : Connective) (args : List NormalForm)
  deriving Inhabited

namespace NormalForm

/-- The parts that `n` contributes to a join under `c`. -/
def parts (c : Connective) (n : NormalForm) : List NormalForm :=
  match n with
  | .join d args => if d = c then args else [n]
  | _ => [n]

/-- The parts of a join, spliced and without units; nothing if some part decides the join. -/
def collect (c : Connective) : List NormalForm → Option (List NormalForm)
  | [] => some []
  | .const b :: rest => if b = c.unit then collect c rest else none
  | n :: rest => (parts c n ++ ·) <$> collect c rest

def gather (c : Connective) (args : List NormalForm) : NormalForm :=
  match collect c args with
  | none => .const !c.unit
  | some [] => .const c.unit
  | some [n] => n
  | some ns => .join c ns

end NormalForm

namespace Constraint

/-- The common divisor of the coefficients, if there is one to be divided out. One that is read as
the least integer stays. -/
def divisor? (k : Constraint) : Option Int64 :=
  let g := Word.gcdAll k.form.coeffs
  if g ≤ 1 then none else some g

/-- The constraint with divided coefficients and another constant. -/
def divideTerms? (k : Constraint) (g c : Int64) : Option NormalForm := do
  let terms ← k.form.terms.mapM fun t => (t.1, ·) <$> Word.div? t.2 g
  return .atom ⟨⟨terms, c⟩, k.relation⟩

/-- Divides the coefficients and tightens the constant. An equation whose constant is not divided
without remainder is false. -/
def divide? (k : Constraint) (g : Int64) : Option NormalForm :=
  match k.relation with
  | .nonneg => do k.divideTerms? g (← Word.floorDiv? k.form.constant g)
  | .zero => do
    let r ← Word.mod? k.form.constant g
    if r = 0 then k.divideTerms? g (← Word.div? k.form.constant g) else return .const false

/-- Divides by the common divisor of the coefficients. Without variables the constraint is
decided. -/
def normalize (k : Constraint) : Result NormalForm :=
  if k.form.isConst then .ok (.const (k.relation.holds k.form.constant.toInt))
  else
    match k.divisor? with
    | none => .ok (.atom k)
    | some g => .orFault (k.divide? g) .division

end Constraint

namespace NormalForm

/-- The comparison of `diff` with zero. -/
def compare (op : Comparison) (diff : LinearForm) : Result NormalForm :=
  match op with
  | .ge => Constraint.normalize ⟨diff, .nonneg⟩
  | .gt => do Constraint.normalize ⟨← diff.shift (-1), .nonneg⟩
  | .le => do Constraint.normalize ⟨← diff.scale (-1), .nonneg⟩
  | .lt => do Constraint.normalize ⟨← (← diff.scale (-1)).shift (-1), .nonneg⟩
  | .eq => Constraint.normalize ⟨diff, .zero⟩
  | .ne => do
    let above ← Constraint.normalize ⟨← diff.shift (-1), .nonneg⟩
    let below ← Constraint.normalize ⟨← (← diff.scale (-1)).shift (-1), .nonneg⟩
    return gather .or [above, below]

end NormalForm

/-- A linear value of a term, taken where all guards hold. -/
structure Case where
  guards : List NormalForm
  form : LinearForm

namespace Case

def guard (n : NormalForm) (c : Case) : Case := ⟨n :: c.guards, c.form⟩

/-- All pairs, the first component varying slowest. -/
def pairs (xs ys : List Case) : List (Case × Case) := xs.flatMap fun x => ys.map fun y => (x, y)

def negate (x : Case) : Result Case := do return ⟨x.guards, ← x.form.scale (-1)⟩

/-- The operation on two cases. A product needs a constant factor. -/
def combine (op : Arith) (term : Expr) (x y : Case) : Result Case := do
  let form ←
    match op with
    | .add => x.form.add y.form
    | .sub => x.form.sub y.form
    | .mul =>
      if x.form.isConst then y.form.scale x.form.constant
      else if y.form.isConst then x.form.scale y.form.constant
      else .error (.error (.nonlinear term.text))
  return ⟨x.guards ++ y.guards, form⟩

def compare (op : Comparison) (x y : Case) : Result NormalForm := do
  let atom ← NormalForm.compare op (← x.form.sub y.form)
  return NormalForm.gather .and (x.guards ++ y.guards ++ [atom])

end Case

namespace Expr

mutual
/-- The normal form of the formula, or of its negation when `positive` does not hold. -/
def normalForm (positive : Bool) : Expr → Result NormalForm
  | .bool b => .ok (.const (b == positive))
  | .not a => normalForm (!positive) a
  | .join c args => do
    let ns ← normalForms positive args
    return .gather (if positive then c else c.dual) ns
  | .implies a b => do
    let na ← normalForm (!positive) a
    let nb ← normalForm positive b
    return .gather (if positive then .or else .and) [na, nb]
  | .ite c t e => do
    let yes ← normalForm true c
    let nt ← normalForm positive t
    let no ← normalForm false c
    let ne ← normalForm positive e
    return .gather .or [.gather .and [yes, nt], .gather .and [no, ne]]
  | .cmp op a b => do
    let xs ← cases a
    let ys ← cases b
    let ns ← (Case.pairs xs ys).mapM fun p =>
      Case.compare (if positive then op else op.negate) p.1 p.2
    return .gather .or ns
  | e@(.int _) | e@(.var _) | e@(.neg _) | e@(.arith ..) =>
    .error (.error (.sort .formula e.text))
def normalForms (positive : Bool) : List Expr → Result (List NormalForm)
  | [] => .ok []
  | a :: as => do
    let n ← normalForm positive a
    return n :: (← normalForms positive as)
/-- The linear cases of an integer term, one for each way through its conditionals. -/
def cases : Expr → Result (List Case)
  | .int n => .ok [⟨[], .const n⟩]
  | .var v => .ok [⟨[], .ofVar v⟩]
  | .neg a => do (← cases a).mapM Case.negate
  | .arith op a b => do
    let xs ← cases a
    let ys ← cases b
    (Case.pairs xs ys).mapM fun p => Case.combine op (.arith op a b) p.1 p.2
  | .ite c t e => do
    let yes ← normalForm true c
    let no ← normalForm false c
    let ts ← cases t
    let es ← cases e
    return ts.map (Case.guard yes) ++ es.map (Case.guard no)
  | e@(.bool _) | e@(.not _) | e@(.implies ..) | e@(.cmp ..) | e@(.join ..) =>
    .error (.error (.sort .term e.text))
end

end Expr
end LoopInvariant
