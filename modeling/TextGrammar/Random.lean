import TextGrammar.Scalar

/-!
# Sources of random values

A source is an endless sequence of numbers and the place reached in it, so how many values have
been drawn is part of it. A drawn value is clamped to the range from zero up to but not including
one. `Source.index` turns a value into an index below a given number, all of them equally wide.

A seeded source draws from the key stream of the ChaCha cipher with twelve rounds, a block counter
of two words and a nonce of zeros. The key is expanded from the seed by a congruential generator
with a permuted output. Two words of the stream, low word first, give 64 bits, and the top 53 of
these a number in the unit interval. A draw is a function of the key and its number alone, so the
stream needs no state.
-/

namespace TextGrammar

/-- A sequence of numbers and the number of values drawn from it. -/
structure Source (α : Type) where
  stream : Nat → α
  position : Nat := 0

namespace Source

variable {α : Type} [Scalar α]

/-- The value that will be drawn after `k` others. -/
def peek (s : Source α) (k : Nat) : α := Scalar.clampUnit (s.stream (s.position + k))

/-- Draw a value. -/
def next (s : Source α) : α × Source α := (s.peek 0, { s with position := s.position + 1 })

/-- The index that a value in the unit interval gives among `n`. -/
def indexOf (value : α) (n : Nat) : Nat := min (Scalar.scale value n) (n - 1)

/-- Draw an index below `n`; of no items the index is zero. -/
def index (s : Source α) (n : Nat) : Nat × Source α :=
  let (value, s) := s.next
  (indexOf value n, s)

/-- Always the same number. -/
def fixed (value : α) : Source α := { stream := fun _ => value }

/-- The numbers of a list over and over; of no numbers, zero. -/
def cycle (values : List α) : Source α :=
  { stream := fun n => values[n % values.length]?.getD Scalar.zero }

end Source

/-! ### Seeded sources -/

namespace ChaCha

/-- A block: sixteen words. -/
abbrev Block := Vector UInt32 16

/-- Rotate a word to the left. -/
def rotateLeft (x : UInt32) (n : UInt32) : UInt32 := (x <<< n) ||| (x >>> (32 - n))

/-- The mixing step on four words of a block. -/
def quarterRound (a b c d : Fin 16) (s : Block) : Block :=
  let s := s.set a (s[a] + s[b])
  let s := s.set d (rotateLeft (s[d] ^^^ s[a]) 16)
  let s := s.set c (s[c] + s[d])
  let s := s.set b (rotateLeft (s[b] ^^^ s[c]) 12)
  let s := s.set a (s[a] + s[b])
  let s := s.set d (rotateLeft (s[d] ^^^ s[a]) 8)
  let s := s.set c (s[c] + s[d])
  s.set b (rotateLeft (s[b] ^^^ s[c]) 7)

/-- A round on the columns and a round on the diagonals. -/
def doubleRound (s : Block) : Block :=
  let s := quarterRound 3 7 11 15 <| quarterRound 2 6 10 14 <|
    quarterRound 1 5 9 13 <| quarterRound 0 4 8 12 s
  quarterRound 3 4 9 14 <| quarterRound 2 7 8 13 <|
    quarterRound 1 6 11 12 <| quarterRound 0 5 10 15 s

/-- The block that is mixed: constants, key, counter and nonce. -/
def initial (key : Vector UInt32 8) (counter : UInt64) : Block :=
  #v[0x61707865, 0x3320646e, 0x79622d32, 0x6b206574,
    key[0], key[1], key[2], key[3], key[4], key[5], key[6], key[7],
    counter.toUInt32, (counter >>> 32).toUInt32, 0, 0]

/-- A block of the key stream. -/
def block (key : Vector UInt32 8) (counter : UInt64) : Block :=
  let start := initial key counter
  (Nat.repeat doubleRound 6 start).zipWith (· + ·) start

/-- The step of the generator that expands a seed. -/
def seedStep (state : UInt64) : UInt64 := state * 6364136223846793005 + 11634580027462260723

/-- The word that a state of this generator gives. -/
def seedWord (state : UInt64) : UInt32 :=
  let x := (((state >>> 18) ^^^ state) >>> 27).toUInt32
  let n := (state >>> 59).toUInt32
  (x >>> n) ||| (x <<< ((32 - n) % 32))

/-- The key of a seed. -/
def keyOfSeed (seed : UInt64) : Vector UInt32 8 :=
  Vector.ofFn fun i => seedWord (Nat.repeat seedStep (i.val + 1) seed)

/-- The value of number `n` in the stream of a key. -/
def value (key : Vector UInt32 8) (n : Nat) : Float :=
  let words := block key (n / 8).toUInt64
  let low := words.get ⟨2 * (n % 8), by omega⟩
  let high := words.get ⟨2 * (n % 8) + 1, by omega⟩
  let bits := (high.toUInt64 <<< 32) ||| low.toUInt64
  (bits >>> 11).toFloat * Float.ofBits 0x3ca0000000000000

end ChaCha

/-- The source of a seed. -/
def Source.seeded (seed : UInt64) : Source Float :=
  let key := ChaCha.keyOfSeed seed
  { stream := ChaCha.value key }

end TextGrammar
