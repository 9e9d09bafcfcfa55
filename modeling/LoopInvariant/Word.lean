/-! Signed 64-bit integers whose arithmetic reports leaving the range instead of wrapping, and
program states as points with such coordinates. -/
namespace LoopInvariant

namespace Word

def ofInt? (n : Int) : Option Int64 :=
  if Int64.minValue.toInt ≤ n ∧ n ≤ Int64.maxValue.toInt then some (Int64.ofInt n) else none

def neg? (a : Int64) : Option Int64 := ofInt? (-a.toInt)
def add? (a b : Int64) : Option Int64 := ofInt? (a.toInt + b.toInt)
def sub? (a b : Int64) : Option Int64 := ofInt? (a.toInt - b.toInt)
def mul? (a b : Int64) : Option Int64 := ofInt? (a.toInt * b.toInt)

/-- Quotient rounded towards zero. There is none for a zero divisor, nor for the least integer
divided by minus one. -/
def div? (a b : Int64) : Option Int64 :=
  if b = 0 then none else ofInt? (a.toInt.tdiv b.toInt)

/-- What the quotient leaves, with the sign of the dividend. It is missing where the quotient is. -/
def mod? (a b : Int64) : Option Int64 := (fun _ => a % b) <$> div? a b

/-- Quotient rounded towards negative infinity. -/
def floorDiv? (a b : Int64) : Option Int64 := do
  let q ← div? a b
  let r ← mod? a b
  if r ≠ 0 ∧ ¬(a < 0 ↔ b < 0) then sub? q 1 else return q

/-- The magnitude as an unsigned word, which has room for that of the least integer too. -/
def magnitude (a : Int64) : UInt64 := UInt64.ofNat a.toInt.natAbs

/-- Takes remainders until none is left. -/
@[semireducible]
def euclid (a b : UInt64) : UInt64 := if b = 0 then a else euclid b (a % b)
termination_by b.toNat
decreasing_by
  rename_i hb
  have hpos : b.toNat ≠ 0 := fun h => hb (UInt64.toNat_inj.mp h)
  rw [UInt64.toNat_mod]
  exact Nat.mod_lt _ (Nat.pos_of_ne_zero hpos)

/-- Greatest common divisor of the magnitudes. The value `2 ^ 63`, which arises from the least
integer alone, is read as the least integer. -/
def gcd (a b : Int64) : Int64 := (euclid (magnitude a) (magnitude b)).toInt64

def gcdAll (xs : List Int64) : Int64 := xs.foldl gcd 0

/-- The nearest floating-point number. -/
def toFloat (a : Int64) : Float :=
  if a < 0 then -(magnitude a).toFloat else (magnitude a).toFloat

def text (a : Int64) : String := toString a.toInt

end Word

/-- One coordinate per program variable. -/
structure Point where
  coords : List Int64
  deriving DecidableEq, Inhabited

namespace Point

def dim (p : Point) : Nat := p.coords.length

def toFloats (p : Point) : List Float := p.coords.map Word.toFloat

def text (p : Point) : String := "(" ++ ", ".intercalate (p.coords.map Word.text) ++ ")"

/-- Lexicographic, a proper beginning before what it begins. -/
instance : Ord Point where
  compare p q := compare p.coords q.coords

end Point
end LoopInvariant
