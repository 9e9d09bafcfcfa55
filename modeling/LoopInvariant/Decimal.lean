/-! Floating-point numbers taken apart: their decimal text, with the fewest digits that read back as
the number, and their rounding to 64-bit integers. -/
namespace LoopInvariant

/-- The number `digits * 10 ^ exponent`. -/
structure Decimal where
  digits : Nat
  exponent : Int
  deriving DecidableEq

namespace Decimal

/-- A magnitude as `mantissa * 2 ^ power`, with the interval of reals that round to it given in
quarters of the unit. -/
structure Binary where
  mantissa : Nat
  power : Int
  below : Nat
  above : Nat

/-- The decomposition of the magnitude of a number. At a power of two the numbers below are half as
far apart as those above. What is infinite comes out as the power of two next to the numbers. -/
def binary (x : Float) : Binary :=
  let bits := x.toBits.toNat
  let fraction : Nat := bits % 4503599627370496
  let biased : Nat := bits / 4503599627370496 % 2048
  if biased = 0 then ⟨fraction, -1074, 2, 2⟩
  else ⟨fraction + 4503599627370496, (biased : Int) - 1075,
    if fraction = 0 ∧ biased > 1 then 1 else 2, 2⟩

/-- Fractions that are not negative, compared and scaled exactly. -/
structure Ratio where
  num : Nat
  den : Nat

/-- `n * 2 ^ e`. -/
def Ratio.binary (n : Nat) (e : Int) : Ratio :=
  if 0 ≤ e then ⟨n * Nat.pow 2 e.toNat, 1⟩ else ⟨n, Nat.pow 2 (-e).toNat⟩

/-- `r / 10 ^ k`. -/
def Ratio.scale (r : Ratio) (k : Int) : Ratio :=
  if 0 ≤ k then ⟨r.num, r.den * Nat.pow 10 k.toNat⟩
  else ⟨r.num * Nat.pow 10 (-k).toNat, r.den⟩

/-- The exponent of the leading decimal digit, searched downwards from `k`. -/
def leading (r : Ratio) : Nat → Int → Int
  | 0, k => k
  | fuel + 1, k =>
    let s := r.scale k
    if s.den ≤ s.num then k else leading r fuel (k - 1)

/-- The nearest of the multiples of `10 ^ k` around the value that lie in its interval, and of two
that are equally near the larger. -/
def onGrid (b : Binary) (k : Int) : Option Nat :=
  let quarter (n : Nat) : Ratio := (Ratio.binary n (b.power - 2)).scale k
  let value := quarter (4 * b.mantissa)
  let low := quarter (4 * b.mantissa - b.below)
  let high := quarter (4 * b.mantissa + b.above)
  let inside (c : Nat) : Bool :=
    if b.mantissa % 2 = 0 then low.num ≤ c * low.den ∧ c * high.den ≤ high.num
    else low.num < c * low.den ∧ c * high.den < high.num
  let c := value.num / value.den
  let rest := value.num % value.den
  match inside c, inside (c + 1) with
  | true, true => some (if 2 * rest < value.den then c else c + 1)
  | true, false => some c
  | false, true => some (c + 1)
  | false, false => none

/-- The shortest decimal of a positive finite number, from the coarsest grid that has one; seventeen
digits always suffice. -/
def shortest (x : Float) : Decimal :=
  let b := binary x
  let top := leading (Ratio.binary b.mantissa b.power) 640 309 + 1
  let found := (List.range 18).findSome? fun n : Nat =>
    (onGrid b (top - n)).map fun c => (⟨c, top - n⟩ : Decimal)
  found.getD ⟨0, 0⟩

/-- Digits with a point, without an exponent. Whole numbers have no point. -/
def positional (d : Decimal) : String :=
  let digits := toString d.digits
  if 0 ≤ d.exponent then digits ++ "".pushn '0' d.exponent.toNat
  else
    let places := (-d.exponent).toNat
    if places < digits.length then
      (digits.take (digits.length - places)).toString ++ "."
        ++ (digits.drop (digits.length - places)).toString
    else "0." ++ "".pushn '0' (places - digits.length) ++ digits

/-- One digit before the point, and an exponent. -/
def scientific (d : Decimal) : String :=
  let digits := toString d.digits
  let mantissa :=
    if digits.length = 1 then digits
    else (digits.take 1).toString ++ "." ++ (digits.drop 1).toString
  mantissa ++ "e" ++ toString (d.exponent + (digits.length - 1 : Nat))

/-- How a format writes numbers. -/
structure Style where
  /-- Whether whole numbers end in a zero decimal. -/
  pointed : Bool
  /-- Which positive numbers have an exponent. -/
  exponential : Float → Bool

def write (style : Style) (x : Float) : String :=
  let magnitude := x.abs
  let sign := if x.toBits ≥ 0x8000000000000000 then "-" else ""
  if x.isNaN then "NaN"
  else if x.isInf then sign ++ "inf"
  else if x == 0 then sign ++ if style.pointed then "0.0" else "0"
  else
    let d := shortest magnitude
    if style.exponential magnitude then sign ++ d.scientific
    else sign ++ d.positional ++ if style.pointed ∧ 0 ≤ d.exponent then ".0" else ""

end Decimal

namespace Rounding

/-- Rounds a fraction by a rule. Values outside the range go to its ends, and what is no number goes
to zero. -/
def rounded (rule : Int → Nat → Int) (x : Float) : Int64 :=
  let b := Decimal.binary x
  let magnitude := Decimal.Ratio.binary b.mantissa b.power
  let num : Int := if x.toBits ≥ 0x8000000000000000 then -magnitude.num else magnitude.num
  if x.isNaN then 0 else .ofIntClamp (rule num magnitude.den)

/-- The nearest integer, halves going to the even one. -/
def nearestEven (num : Int) (den : Nat) : Int :=
  let below := num / den
  let twice := 2 * (num % den)
  if twice < den ∨ twice = den ∧ below % 2 = 0 then below else below + 1

def toNearest : Float → Int64 := rounded nearestEven
def up : Float → Int64 := rounded fun num den => -(-num / den)
def down : Float → Int64 := rounded fun num den => num / den

end Rounding
end LoopInvariant
