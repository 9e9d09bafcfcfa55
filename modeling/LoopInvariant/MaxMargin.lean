import LoopInvariant.Separator

/-! The separator of largest soft margin, found by sequential minimal optimization of the dual
problem. Each step moves the two multipliers that violate optimality most, judged by the gain of
the move. Multipliers that stay at a bound are set aside, and come back with fresh gradients before
the result is accepted. -/
namespace LoopInvariant

/-- Floating-point vectors of a fixed length, stored unboxed. -/
structure FloatVector (n : Nat) where
  data : FloatArray
  size_data : data.size = n

namespace FloatVector

variable {n : Nat}

def get (v : FloatVector n) (i : Fin n) : Float := v.data.get i (by simp [v.size_data])

def set (v : FloatVector n) (i : Fin n) (x : Float) : FloatVector n :=
  ⟨v.data.set i x (by simp [v.size_data]),
    (Array.size_set _).trans v.size_data⟩

def replicate (n : Nat) (x : Float) : FloatVector n :=
  ⟨⟨Array.replicate n x⟩, by simp [FloatArray.size]⟩

def ofFn (f : Fin n → Float) : FloatVector n := ⟨⟨Array.ofFn f⟩, by simp [FloatArray.size]⟩

def toList (v : FloatVector n) : List Float := v.data.data.toList

/-- Products added up from the left, starting at negative zero. -/
def dot (a b : FloatVector n) : Float := Fin.foldl n (fun s i => s + a.get i * b.get i) (-0.0)

end FloatVector

namespace MaxMargin

structure Settings where
  /-- Upper bound of the multipliers. -/
  c : Float := 1000
  tolerance : Float := 1e-3
  maxIterations : Nat := 10000000

/-- The larger number; what is no number gives way to the other. -/
def larger (a b : Float) : Float := if a.isNaN || b > a then b else a

/-- The smaller number; what is no number gives way to the other. -/
def smaller (a b : Float) : Float := if a.isNaN || b < a then b else a

/-- Curvatures that are not positive count as this. -/
def leastCurvature : Float := 1e-12

def curvature (q : Float) : Float := if q > 0 then q else leastCurvature

variable {n d : Nat}

/-- `n` samples with `d` coordinates. -/
structure Problem (n d : Nat) where
  points : Vector (FloatVector d) n
  /-- One or minus one. -/
  signs : FloatVector n
  /-- Squared lengths of the points. -/
  norms : FloatVector n
  settings : Settings

structure State (n d : Nat) where
  multipliers : FloatVector n
  gradient : FloatVector n
  /-- The sum of the points, each times its sign and multiplier. -/
  weights : FloatVector d
  active : List (Fin n)
  /-- Whether all samples were brought back once on nearing the optimum. -/
  restored : Bool

namespace Problem

/-- The entry of the dual's quadratic form. -/
def product (p : Problem n d) (i j : Fin n) : Float :=
  p.signs.get i * p.signs.get j * (p.points.get i).dot (p.points.get j)

/-- All multipliers zero and all samples active. -/
def start : State n d where
  multipliers := .replicate n 0
  gradient := .replicate n (-1)
  weights := .replicate d 0
  active := List.finRange n
  restored := false

def atUpper (p : Problem n d) (s : State n d) (i : Fin n) : Bool :=
  s.multipliers.get i ≥ p.settings.c

def atLower (s : State n d) (i : Fin n) : Bool := s.multipliers.get i ≤ 0

/-- Whether the signed multiplier can still grow. -/
def canRise (p : Problem n d) (s : State n d) (i : Fin n) : Bool :=
  if p.signs.get i > 0 then !p.atUpper s i else !atLower s i

/-- Whether the signed multiplier can still shrink. -/
def canFall (p : Problem n d) (s : State n d) (i : Fin n) : Bool :=
  if p.signs.get i > 0 then !atLower s i else !p.atUpper s i

/-- The gain of raising the signed multiplier. -/
def slope (p : Problem n d) (s : State n d) (i : Fin n) : Float :=
  if p.signs.get i > 0 then -s.gradient.get i else s.gradient.get i

/-! ### The pair to move -/

/-- The largest slope among the samples that can rise, the last one of equals. -/
def steepest (p : Problem n d) (s : State n d) :
    List (Fin n) → Float → Option (Fin n) → Float × Option (Fin n)
  | [], top, best => (top, best)
  | t :: ts, top, best =>
    let g := p.slope s t
    if p.canRise s t && g ≥ top then steepest p s ts g (some t)
    else steepest p s ts top best

/-- The best partner found so far. -/
structure Partner (n : Nat) where
  /-- The largest negated slope of all candidates. -/
  top : Float
  objective : Float
  best : Option (Fin n)

/-- The partner of `i`, which has slope `peak`, that promises the largest decrease of the
objective, the last one of equals. -/
def partner (p : Problem n d) (s : State n d) (i : Fin n) (peak : Float) :
    List (Fin n) → Partner n → Partner n
  | [], found => found
  | j :: js, found =>
    if p.canFall s j then
      let g := p.slope s j
      let found := { found with top := larger found.top (-g) }
      let gap := peak - g
      if gap > 0 then
        let cross := 2.0 * p.signs.get i * p.product i j
        let sum := p.norms.get i + p.norms.get j
        let q := curvature (if p.signs.get j > 0 then sum - cross else sum + cross)
        let objective := -(gap * gap) / q
        if objective ≤ found.objective then
          partner p s i peak js { found with objective, best := some j }
        else partner p s i peak js found
      else partner p s i peak js found
    else partner p s i peak js found

/-- The pair of active samples to move next; nothing once optimality holds within tolerance. -/
def select (p : Problem n d) (s : State n d) : Option (Fin n × Fin n) :=
  match p.steepest s s.active (-1.0 / 0.0) none with
  | (_, none) => none
  | (peak, some i) =>
    let found := p.partner s i peak s.active ⟨-1.0 / 0.0, 1.0 / 0.0, none⟩
    if peak + found.top < p.settings.tolerance then none
    else found.best.map fun j => (i, j)

/-! ### The move -/

/-- New multipliers for samples of opposite signs, whose difference is kept. -/
def moveApart (c a b delta : Float) : Float × Float :=
  let diff := a - b
  let (x, y) := (a + delta, b + delta)
  let (x, y) :=
    if diff > 0 then if y < 0 then (diff, 0.0) else (x, y)
    else if x < 0 then (0.0, -diff) else (x, y)
  if diff > 0 then if x > c then (c, c - diff) else (x, y)
  else if y > c then (c + diff, c) else (x, y)

/-- New multipliers for samples of equal signs, whose sum is kept. -/
def moveTogether (c a b delta : Float) : Float × Float :=
  let sum := a + b
  let (x, y) := (a - delta, b + delta)
  let (x, y) :=
    if sum > c then if x > c then (c, sum - c) else (x, y)
    else if y < 0 then (sum, 0.0) else (x, y)
  if sum > c then if y > c then (sum - c, c) else (x, y)
  else if x < 0 then (0.0, sum) else (x, y)

def moved (p : Problem n d) (s : State n d) (i j : Fin n) : Float × Float :=
  let c := p.settings.c
  let q := p.product i j
  let sum := p.norms.get i + p.norms.get j
  let (a, b) := (s.multipliers.get i, s.multipliers.get j)
  let (g, h) := (s.gradient.get i, s.gradient.get j)
  if p.signs.get i != p.signs.get j then moveApart c a b ((-g - h) / curvature (sum + 2.0 * q))
  else moveTogether c a b ((g - h) / curvature (sum - 2.0 * q))

def addVector (w : FloatVector d) (v : FloatVector d) : FloatVector d :=
  .ofFn fun k => w.get k + v.get k

/-- Adds the effect of a change of the weights to the gradients of the given samples. -/
def addGradient (p : Problem n d) (change : FloatVector d) :
    List (Fin n) → FloatVector n → FloatVector n
  | [], g => g
  | k :: ks, g =>
    addGradient p change ks (g.set k (g.get k + p.signs.get k * change.dot (p.points.get k)))

def update (p : Problem n d) (s : State n d) (i j : Fin n) : State n d :=
  let (x, y) := p.moved s i j
  let si := (x - s.multipliers.get i) * p.signs.get i
  let sj := (y - s.multipliers.get j) * p.signs.get j
  let change : FloatVector d :=
    .ofFn fun k => si * (p.points.get i).get k + sj * (p.points.get j).get k
  { s with
    multipliers := (s.multipliers.set i x).set j y
    weights := addVector s.weights change
    gradient := p.addGradient change s.active s.gradient }

/-! ### Setting samples aside -/

/-- All samples active, with gradients computed from the weights. -/
def refresh (p : Problem n d) (s : State n d) : State n d :=
  { s with
    gradient := .ofFn fun k => p.signs.get k * s.weights.dot (p.points.get k) - 1
    active := List.finRange n }

/-- Whether a sample stays at its bound, given the largest slopes that can rise and fall. -/
def settled (p : Problem n d) (s : State n d) (rise fall : Float) (i : Fin n) : Bool :=
  let g := s.gradient.get i
  if p.atUpper s i then if p.signs.get i > 0 then -g > rise else -g > fall
  else if atLower s i then if p.signs.get i > 0 then g > fall else g > rise
  else false

/-- The largest slope of samples that can rise, and the largest negated one of those that can
fall. -/
def extremes (p : Problem n d) (s : State n d) : List (Fin n) → Float → Float → Float × Float
  | [], rise, fall => (rise, fall)
  | t :: ts, rise, fall =>
    let g := p.slope s t
    extremes p s ts (if p.canRise s t then larger rise g else rise)
      (if p.canFall s t then larger fall (-g) else fall)

def shrink (p : Problem n d) (s : State n d) : State n d :=
  let (rise, fall) := p.extremes s s.active (-1.0 / 0.0) (-1.0 / 0.0)
  let s :=
    if !s.restored && rise + fall ≤ p.settings.tolerance * 10.0 then
      { p.refresh s with restored := true }
    else s
  { s with active := s.active.filter fun t => !p.settled s rise fall t }

/-! ### The result -/

/-- What the samples say about the offset. -/
structure Offset where
  above : Float
  below : Float
  /-- Sum and number over the samples between the bounds. -/
  total : Float
  free : Nat

def Offset.add (p : Problem n d) (s : State n d) (o : Offset) (i : Fin n) : Offset :=
  let g := p.signs.get i * s.gradient.get i
  if p.atUpper s i then
    if p.signs.get i < 0 then { o with above := smaller o.above g }
    else { o with below := larger o.below g }
  else if atLower s i then
    if p.signs.get i > 0 then { o with above := smaller o.above g }
    else { o with below := larger o.below g }
  else { o with total := o.total + g, free := o.free + 1 }

def offset (p : Problem n d) (s : State n d) : Float :=
  let o := (List.finRange n).foldl (Offset.add p s) ⟨1.0 / 0.0, -1.0 / 0.0, 0, 0⟩
  if o.free > 0 then o.total / Float.ofNat o.free else (o.above + o.below) / 2

/-- Samples are set aside each time this many steps have passed. -/
def period (n : Nat) : Nat := min n 1000

/-- One tick of the countdown to the next shrinking. It starts again when it has run out, and it
never gets to tick at zero. -/
def tick (p : Problem n d) (s : State n d) : Nat → Result (State n d × Nat)
  | 0 => .error (.fault .arithmetic)
  | 1 => .ok (p.shrink s, period n)
  | wait + 2 => .ok (s, wait + 1)

/-- The pair to move next, with the state in which it was found and the countdown. If the active
samples have none, all are brought back, to be set aside again after the move. -/
def choose (p : Problem n d) (s : State n d) (wait : Nat) :
    State n d × Nat × Option (Fin n × Fin n) :=
  match p.select s with
  | some pair => (s, wait, some pair)
  | none =>
    let s := p.refresh s
    (s, 1, p.select s)

/-- Steps until optimality, at most `more` after the first `count`; `wait` counts down to the next
shrinking. -/
def optimize (p : Problem n d) (more count : Nat) (s : State n d) (wait : Nat) :
    Result (State n d) := do
  let (s, wait) ← p.tick s wait
  match p.choose s wait with
  | (s, _, none) => return s
  | (s, wait, some (i, j)) =>
    match more with
    | 0 => .error (.error (.notConverged count))
    | more + 1 => p.optimize more (count + 1) (p.update s i j) wait

end Problem

def sign : Label → Float
  | .positive => 1
  | .negative => -1

/-- The samples as a problem, if they all have `d` coordinates. -/
def problem (samples : Array (Point × Label)) (d : Nat) (settings : Settings)
    (dims : ∀ s ∈ samples, s.1.dim = d) : Problem samples.size d :=
  let points : Vector (FloatVector d) samples.size := Vector.ofFn fun i =>
    ⟨⟨samples[i].1.toFloats.toArray⟩, by
      have := dims samples[i] (Array.getElem_mem i.2)
      simpa [FloatArray.size, Point.toFloats, Point.dim] using this⟩
  { points
    signs := .ofFn fun i => sign samples[i].2
    norms := .ofFn fun i => (points.get i).dot (points.get i)
    settings }

/-- Fits a separator. Both labels have to occur, and all points need the dimension of the first. -/
def train (settings : Settings) (samples : List (Point × Label)) : Result LinearModel :=
  let has (l : Label) : Bool := samples.any (·.2 = l)
  if !has .positive || !has .negative then .error (.error .emptyTrainingSet)
  else
    let d := (samples.head?.map (·.1.dim)).getD 0
    match h : samples.find? (·.1.dim ≠ d) with
    | some (q, _) => .error (.error (.dimension q q.dim d))
    | none => do
      let p := problem samples.toArray d settings (by simpa using h)
      let period := Problem.period samples.toArray.size
      let s ← p.optimize settings.maxIterations 0 Problem.start (period + 1)
      return ⟨s.weights.toList, -p.offset s⟩

end MaxMargin

/-- The separator of largest margin, which keeps nothing between calls. -/
def Separator.maxMargin (settings : MaxMargin.Settings) : Separator Unit :=
  ⟨fun samples => return MaxMargin.train settings samples⟩

end LoopInvariant
