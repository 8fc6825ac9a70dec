/-!
# Scalars

Weights and draws are numbers of one type. A program that runs uses numbers of double precision;
what selection does is easiest to say of exact numbers. `Scalar` lists what both must offer.

`Scalar.clampUnit` brings any number into the range of a draw: at least zero and below one.
-/

namespace TextGrammar

/-- Numbers that weights and draws are made of. -/
class Scalar (α : Type) where
  zero : α
  one : α
  add : α → α → α
  mul : α → α → α
  le : α → α → Bool
  lt : α → α → Bool
  isFinite : α → Bool
  /-- The draw that stands in for one and everything above. -/
  belowOne : α
  /-- The product with a natural number, rounded down. -/
  scale : α → Nat → Nat

namespace Scalar

variable {α : Type} [Scalar α]

/-- The sum of a list, from the left. -/
def sum (xs : List α) : α := xs.foldl add zero

/-- The nearest draw; what is not comparable to zero counts as zero. -/
def clampUnit (x : α) : α := if le one x then belowOne else if le zero x then x else zero

/-- Double precision. The largest draw is one less the distance from one to the next number
above. -/
instance : Scalar Float where
  zero := 0
  one := 1
  add x y := x + y
  mul x y := x * y
  le x y := x ≤ y
  lt x y := x < y
  isFinite x := x.isFinite
  belowOne := Float.ofBits 0x3feffffffffffffe
  scale x n := (x * Float.ofNat n).toUInt64.toNat

end Scalar

end TextGrammar
