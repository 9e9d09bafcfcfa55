import LoopInvariant.Decimal
import LoopInvariant.Failure

/-! Linear classifiers of labelled points. -/
namespace LoopInvariant

inductive Label where
  | positive
  | negative
  deriving DecidableEq

structure LinearModel where
  weights : List Float
  bias : Float

namespace LinearModel

/-- The sum of the products, which starts at negative zero, and then the bias. -/
def score (m : LinearModel) (p : Point) : Float :=
  (m.weights.zip p.coords).foldl (fun s t => s + t.1 * Word.toFloat t.2) (-0.0) + m.bias

def label (m : LinearModel) (p : Point) : Label := if m.score p > 0 then .positive else .negative

/-- Whether the point has a coordinate for each weight. -/
def fits (m : LinearModel) (p : Point) : Bool := p.dim = m.weights.length

def decision (m : LinearModel) (p : Point) : Result Float :=
  if m.fits p then .ok (m.score p) else .error (.fault .dimension)

def predict (m : LinearModel) (p : Point) : Result Label :=
  if m.fits p then .ok (m.label p) else .error (.fault .dimension)

/-- Weights always show a decimal, and an exponent when very small or very large. -/
def weightStyle : Decimal.Style := ⟨true, fun x => x < 1e-4 || x ≥ 1e16⟩

/-- The bias is written out in full. -/
def biasStyle : Decimal.Style := ⟨false, fun _ => false⟩

def text (m : LinearModel) : String :=
  "[" ++ ", ".intercalate (m.weights.map (Decimal.write weightStyle)) ++ "]·x + "
    ++ Decimal.write biasStyle m.bias

end LinearModel

/-- A way to fit a classifier to labelled points. It may keep state between its calls. -/
structure Separator (τ : Type) where
  train : List (Point × Label) → StateM τ (Result LinearModel)

end LoopInvariant
