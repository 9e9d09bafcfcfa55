import LoopInvariant.Decimal
import LoopInvariant.Expr
import LoopInvariant.Failure

/-! Half-spaces of integer points. Each is a conjunct of a candidate invariant, and reflection in
its boundary makes new points out of old ones. -/
namespace LoopInvariant

/-- The points where the products of coefficients and coordinates and the constant add up to more
than zero. -/
structure Halfspace where
  coeffs : List Int64
  constant : Int64
  deriving DecidableEq, Inhabited

namespace Halfspace

/-- Sums are formed in 128 bits, and do not reach `2 ^ 127` on either side. -/
def wideLimit : Int := 170141183460469231731687303715884105728

def wide? (n : Int) : Option Int := if -wideLimit ≤ n ∧ n < wideLimit then some n else none

/-- The sum so far and the products, provided that no partial sum leaves the wide integers. -/
def sumProducts (acc : Int) : List (Int64 × Int64) → Option Int
  | [] => some acc
  | (a, x) :: rest => do sumProducts (← wide? (acc + a.toInt * x.toInt)) rest

def eval (h : Halfspace) (p : Point) : Result Int :=
  if p.dim = h.coeffs.length then
    .orFault (do wide? ((← sumProducts 0 (h.coeffs.zip p.coords)) + h.constant.toInt)) .arithmetic
  else .error (.fault .dimension)

def contains (h : Halfspace) (p : Point) : Result Bool := do return 0 < (← h.eval p)

/-- A half-space without a boundary. -/
def isDegenerate (h : Halfspace) : Bool := h.coeffs.all (· = 0)

/-- Rounds the multiple of a real half-space. -/
def ofReal (weights : List Float) (bias multiplier : Float) : Halfspace :=
  ⟨weights.map fun w => Rounding.toNearest (w * multiplier), Rounding.toNearest (bias * multiplier)⟩

/-- The sum of the terms from the left, and the constant last. -/
def sumExpr (constant : Int64) : List Expr → Expr
  | [] => .int constant
  | t :: ts => .arith .add (ts.foldl (.arith .add) t) (.int constant)

/-- The formula that holds of the points inside. -/
def toExpr (h : Halfspace) (vars : List Var) : Result Expr :=
  if vars.length = h.coeffs.length then
    let terms := List.zipWith (fun a v => .arith .mul (.int a) (.var v)) h.coeffs vars
    .ok (.cmp .gt (sumExpr h.constant terms) (.int 0))
  else .error (.fault .dimension)

/-- The points at distance `margin` along each axis, the lesser one first. -/
def neighbours (margin : Int64) (p : Point) : Option (List Point) := do
  let back ← Word.neg? margin
  let shifted (axis : Nat) (delta : Int64) : Option Point := do
    return ⟨p.coords.set axis (← Word.add? (p.coords.getD axis 0) delta)⟩
  let pairs ← (List.range p.dim).mapM fun axis => do
    return [← shifted axis back, ← shifted axis margin]
  return pairs.flatten

/-- The reflection of one coordinate, rounded away from it. -/
def reflectCoord (t : Float) (a x : Int64) : Int64 :=
  let r := Word.toFloat x + t * Word.toFloat a
  if r > Word.toFloat x then Rounding.up r else Rounding.down r

/-- The reflection of a point in the boundary. A point on the boundary gives its neighbours along
the axes instead, and a degenerate half-space gives nothing. -/
def reflect (h : Halfspace) (p : Point) (margin : Int64) : Result (List Point) := do
  let square ← Result.orFault (sumProducts 0 (h.coeffs.zip h.coeffs)) .arithmetic
  if square = 0 then return []
  let distance ← h.eval p
  if distance = 0 then Result.orFault (neighbours margin p) .arithmetic
  else
    let t := -2.0 * Float.ofInt distance / Float.ofInt square
    return [⟨List.zipWith (reflectCoord t) h.coeffs p.coords⟩]

def text (h : Halfspace) : String :=
  "[" ++ ", ".intercalate (h.coeffs.map Word.text) ++ "]·x + " ++ Word.text h.constant ++ " > 0"

end Halfspace
end LoopInvariant
