/-! Spans of time and their text. -/
namespace LoopInvariant

structure Duration where
  nanoseconds : Nat := 0
  deriving DecidableEq, Inhabited

namespace Duration

def ofParts (seconds nanos : Nat) : Duration := ⟨seconds * 1000000000 + nanos⟩

def seconds (t : Duration) : Nat := t.nanoseconds / 1000000000
def nanos (t : Duration) : Nat := t.nanoseconds % 1000000000

/-- The largest unit that the span reaches, with the number of its decimal places. -/
def unit (t : Duration) : String × Nat :=
  if t.nanoseconds ≥ 1000000000 then ("s", 9)
  else if t.nanoseconds ≥ 1000000 then ("ms", 6)
  else if t.nanoseconds ≥ 1000 then ("µs", 3)
  else ("ns", 0)

/-- A number with the given decimal places. -/
def decimals (value places : Nat) : String :=
  let unit := Nat.pow 10 places
  let digits := toString (value % unit)
  toString (value / unit) ++ "." ++ "".pushn '0' (places - digits.length) ++ digits

/-- The decimal places needed when trailing zeros are left out. -/
def trimmed : Nat → Nat → Nat × Nat
  | value, 0 => (value, 0)
  | value, places + 1 =>
    if value % 10 = 0 then trimmed (value / 10) places else (value, places + 1)

/-- All the digits there are. -/
def text (t : Duration) : String :=
  let (name, places) := t.unit
  match trimmed t.nanoseconds places with
  | (whole, 0) => toString whole ++ name
  | (value, places) => decimals value places ++ name

/-- Two decimal places, rounded to the nearest. -/
def shortText (t : Duration) : String :=
  let (name, places) := t.unit
  let unit := Nat.pow 10 places
  let hundredths := (2 * 100 * t.nanoseconds + unit) / (2 * unit)
  decimals hundredths 2 ++ name

end Duration
end LoopInvariant
