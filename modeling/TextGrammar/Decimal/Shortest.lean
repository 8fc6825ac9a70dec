import TextGrammar.Decimal

/-!
# Shortest decimals

A binary number of double precision is `mantissa * 2 ^ exponent`. All reals nearer to it than to
its neighbours round to it, and so do the two midpoints if the mantissa is even. The shortest
decimal for it is the one of fewest digits among these reals, and among those of equal length the
nearest; where two are equally near, a `Tie` decides.

On the grid of multiples of `10 ^ e` the only candidates are the two neighbours of the value, so
the search tries one grid after the other, coarsest first.
-/

namespace TextGrammar

/-- Which of two equally near candidates to take. -/
inductive Tie where
  /-- The one with the even last digit. -/
  | even
  /-- The larger one. -/
  | up
  deriving DecidableEq, Repr

/-- A positive binary number `mantissa * 2 ^ exponent`. -/
structure Binary where
  mantissa : Nat
  exponent : Int
  deriving DecidableEq, Repr

namespace Binary

/-- The least mantissa of a number that is not too near to zero for one: 52 bits are stored, and
one before them is understood. -/
def leastNormal : Nat := 0x10000000000000

/-- The magnitude of a finite number of double precision. -/
def ofFloat (x : Float) : Binary :=
  let bits : Nat := x.toBits.toNat
  let stored : Nat := bits % leastNormal
  let scale : Nat := bits / leastNormal % 0x800
  if scale = 0 then ⟨stored, -1074⟩ else ⟨leastNormal + stored, (scale : Int) - 1075⟩

/-- The sign bit of a number of double precision. -/
def isNegative (x : Float) : Bool := x.toBits >>> 63 == 1

/-- Whether the neighbour below is only half as far as the one above. -/
def isPowerOfTwo (b : Binary) : Bool := b.mantissa == leastNormal && b.exponent != -1074

/-- The numerator of `n * 2 ^ two * 10 ^ ten`, over the denominator `scaled 1 (-two) (-ten)`. -/
def scaled (n : Nat) (two ten : Int) : Nat := n * Nat.pow 2 two.toNat * Nat.pow 10 ten.toNat

/-- Whether `k * 10 ^ e` is below, at or above `quarters / 4 * 2 ^ exponent`. -/
def compareGrid (b : Binary) (quarters k : Nat) (e : Int) : Ordering :=
  compare (scaled k (2 - b.exponent) e) (scaled quarters (b.exponent - 2) (-e))

/-- Whether `k * 10 ^ e` rounds to the number. -/
def roundsTo (b : Binary) (k : Nat) (e : Int) : Bool :=
  let inside (o : Ordering) (bound : Ordering) : Bool :=
    o == bound || (o == .eq && b.mantissa % 2 == 0)
  inside (b.compareGrid (4 * b.mantissa - if b.isPowerOfTwo then 1 else 2) k e) .gt &&
    inside (b.compareGrid (4 * b.mantissa + 2) k e) .lt

/-- The largest multiple of `10 ^ e` that is not above the number, as a factor. -/
def floorGrid (b : Binary) (e : Int) : Nat :=
  scaled b.mantissa b.exponent (-e) / scaled 1 (-b.exponent) e

/-- The number against the middle of the neighbours `k` and `k + 1` on the grid of multiples of
`10 ^ e`. -/
def compareMiddle (b : Binary) (k : Nat) (e : Int) : Ordering :=
  compare (scaled (2 * b.mantissa) b.exponent (-e)) (scaled (2 * k + 1) (-b.exponent) e)

/-- The better one of the neighbours `k` and `k + 1` on the grid of multiples of `10 ^ e`, if one
rounds to the number. -/
def candidate? (b : Binary) (tie : Tie) (e : Int) : Option Nat :=
  let k := b.floorGrid e
  match b.roundsTo k e, b.roundsTo (k + 1) e with
  | false, false => none
  | true, false => some k
  | false, true => some (k + 1)
  | true, true =>
    match b.compareMiddle k e with
    | .lt => some k
    | .gt => some (k + 1)
    | .eq => some (if tie = .up ∨ k % 2 = 1 then k + 1 else k)

/-- The number of digits before the point. -/
def point (b : Binary) : Int :=
  if 1 ≤ b.floorGrid 0 then Decimal.width (b.floorGrid 0)
  else Decimal.width (b.floorGrid (-400)) - 400

/-- The first candidate on the grids `10 ^ e`, `10 ^ (e - 1)` and so on. -/
def search (b : Binary) (tie : Tie) : (grids : Nat) → Int → Nat × Int
  | 0, e => (b.floorGrid e, e)
  | grids + 1, e =>
    match b.candidate? tie e with
    | some k => (k, e)
    | none => b.search tie grids (e - 1)

end Binary

namespace Decimal

/-- The shortest decimal that rounds to a finite number. -/
def shortest (tie : Tie) (x : Float) : Decimal :=
  let negative := Binary.isNegative x
  let b := Binary.ofFloat x
  if b.mantissa = 0 then ⟨negative, 0, 0⟩
  else
    let (k, e) := b.search tie 17 (b.point - 1)
    .ofDigits negative k e

/-- The number rounded to a multiple of `10 ^ (-places)`, a half going to the even neighbour. -/
def fixed (places : Nat) (x : Float) : Decimal :=
  let b := Binary.ofFloat x
  let k := b.floorGrid (-places)
  let position := b.compareMiddle k (-places)
  let up := position == .gt || (position == .eq && k % 2 == 1)
  ⟨Binary.isNegative x, if up then k + 1 else k, -places⟩

end Decimal

end TextGrammar
