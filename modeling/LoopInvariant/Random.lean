/-! A reproducible stream of random words: the ChaCha block function with eight rounds, keyed by a
64-bit seed. -/
namespace LoopInvariant

structure Random where
  key : Vector UInt32 8
  /-- Number of the next block. -/
  counter : UInt64
  /-- Words of the last block that are still unused. -/
  pending : List UInt32

namespace Random

def rotateLeft (x k : UInt32) : UInt32 := (x <<< k) ||| (x >>> (32 - k))
def rotateRight (x k : UInt32) : UInt32 := (x >>> k) ||| (x <<< (32 - k))

abbrev Block := Vector UInt32 16

def quarterRound (s : Block) (a b c d : Fin 16) : Block :=
  let s := s.set a (s[a] + s[b])
  let s := s.set d (rotateLeft (s[d] ^^^ s[a]) 16)
  let s := s.set c (s[c] + s[d])
  let s := s.set b (rotateLeft (s[b] ^^^ s[c]) 12)
  let s := s.set a (s[a] + s[b])
  let s := s.set d (rotateLeft (s[d] ^^^ s[a]) 8)
  let s := s.set c (s[c] + s[d])
  s.set b (rotateLeft (s[b] ^^^ s[c]) 7)

/-- The four columns, then the four diagonals. -/
def doubleRound (s : Block) : Block :=
  let s := quarterRound s 0 4 8 12
  let s := quarterRound s 1 5 9 13
  let s := quarterRound s 2 6 10 14
  let s := quarterRound s 3 7 11 15
  let s := quarterRound s 0 5 10 15
  let s := quarterRound s 1 6 11 12
  let s := quarterRound s 2 7 8 13
  quarterRound s 3 4 9 14

def block (key : Vector UInt32 8) (counter : UInt64) : Block :=
  let constants : Vector UInt32 4 := #v[0x61707865, 0x3320646e, 0x79622d32, 0x6b206574]
  let position : Vector UInt32 4 := #v[counter.toUInt32, (counter >>> 32).toUInt32, 0, 0]
  let first : Block := constants ++ key ++ position
  let last := doubleRound (doubleRound (doubleRound (doubleRound first)))
  last.zipWith (· + ·) first

/-- Key words from a linear congruential generator whose output is permuted. -/
def keyWords : Nat → UInt64 → List UInt32
  | 0, _ => []
  | n + 1, state =>
    let state := state * 6364136223846793005 + 11634580027462260723
    let x := (((state >>> 18) ^^^ state) >>> 27).toUInt32
    rotateRight x (state >>> 59).toUInt32 :: keyWords n state

theorem length_keyWords (n : Nat) (s : UInt64) : (keyWords n s).length = n := by
  induction n generalizing s <;> simp [keyWords, *]

def ofSeed (seed : UInt64) : Random :=
  ⟨⟨(keyWords 8 seed).toArray, by simp [length_keyWords]⟩, 0, []⟩

abbrev Drawing := StateM Random

def word : Drawing UInt32 := fun r =>
  match r.pending with
  | w :: rest => (w, { r with pending := rest })
  | [] =>
    let b := block r.key r.counter
    (b[0], { r with counter := r.counter + 1, pending := b.toList.tail })

/-- Two words, the low half first. -/
def doubleWord : Drawing Nat := do
  let low ← word
  let high ← word
  return low.toNat + high.toNat * 4294967296

/-- A number below `range`, by scaling a draw below `size`. A draw whose low part could carry is
refined by one more. -/
def below (size : Nat) (draw : Drawing Nat) (range : Nat) : Drawing Nat := do
  let product := (← draw) * range
  let high := product / size
  let low := product % size
  if low > size - range then
    let refined := (← draw) * range / size
    return if low + refined ≥ size then high + 1 else high
  else return high

/-- An integer from `low` on, below `high`. -/
def integer (low high : Int64) : Drawing Int64 := do
  let range := (high - low).toUInt64.toNat
  return low + Int64.ofNat (← below 18446744073709551616 doubleWord range)

/-- An index below `n`. Short ranges take a single word. -/
def index (n : Nat) : Drawing Nat :=
  if n < 4294967296 then below 4294967296 (UInt32.toNat <$> word) n
  else below 18446744073709551616 doubleWord n

end Random
end LoopInvariant
