import TextGrammar.Decimal
import TextGrammar.Decimal.Shortest

/-!
# Layouts of numbers

The written form of a number is its shortest decimal in a `Layout`: where positional notation
ends, what follows a whole number, and how an exponent is marked. `Layout.json` is the layout of
documents and `Layout.message` that of messages.
-/

namespace TextGrammar

/-- How a number is written. -/
structure Layout where
  /-- Numbers of magnitude `10 ^ low` and more are positional, if there is a bound. -/
  low : Option Int
  /-- Numbers of magnitude below `10 ^ high` are positional, if there is a bound. -/
  high : Option Int
  /-- The digits after the point of a positional number without a fraction, if it has a point. -/
  wholeFraction : Option Text
  tie : Tie
  deriving Repr

namespace Layout

/-- Documents write numbers from `1e-5` up to `1e16` by position, with at least one digit after the
point, and all others with a signed exponent; of two equally near decimals the even one is taken. -/
def json : Layout := ⟨some (-5), some 16, some ['0'], .even⟩

/-- Messages write every number by position, and whole numbers without a point; of two equally near
decimals the larger one is taken. -/
def message : Layout := ⟨none, none, none, .up⟩

/-- Digits with a point after the first `point` of them, zeros filled in on either side. -/
def positional (digits : Text) (point : Int) (wholeFraction : Option Text) : Numeral :=
  if point ≤ 0 then
    ⟨none, ['0'], some (List.replicate (-point).toNat '0' ++ digits), none⟩
  else if digits.length ≤ point.toNat then
    ⟨none, digits ++ List.replicate (point.toNat - digits.length) '0', wholeFraction, none⟩
  else ⟨none, digits.take point.toNat, some (digits.drop point.toNat), none⟩

/-- Digits with a point after the first one, and an exponent. -/
def scientific (digits : Text) (exponent : Int) : Numeral :=
  let fraction := if digits.length ≤ 1 then none else some (digits.drop 1)
  let sign := if exponent < 0 then '-' else '+'
  ⟨none, digits.take 1, fraction, some (some sign, Nat.toDigits 10 exponent.natAbs)⟩

/-- A numeral with the sign of a decimal. -/
def signed (d : Decimal) (n : Numeral) : Numeral :=
  { n with sign := if d.negative then some '-' else none }

/-- The numeral of a decimal. -/
def numeral (layout : Layout) (d : Decimal) : Numeral :=
  let digits := Nat.toDigits 10 d.digits
  let point := if d.digits = 0 then 1 else d.point
  let above := layout.low.all fun low => low < point
  let below := layout.high.all fun high => point ≤ high
  signed d <|
    if above && below then positional digits point layout.wholeFraction
    else scientific digits (point - 1)

/-- The numeral of a finite number of double precision. -/
def ofFloat (layout : Layout) (x : Float) : Numeral := layout.numeral (.shortest layout.tie x)

/-- Write a number of double precision; the layout says nothing about those that are not finite. -/
def writeFloat (layout : Layout) (x : Float) : String :=
  if x.isNaN then "NaN"
  else if x.isInf then if x < 0 then "-inf" else "inf"
  else (layout.ofFloat x).text.asString

/-- Write a number with exactly `places` digits after the point. -/
def writeFixed (places : Nat) (x : Float) : String :=
  let d := Decimal.fixed places x
  let digits := Nat.toDigits 10 d.digits
  let padded := List.replicate (places + 1 - digits.length) '0' ++ digits
  (signed d (positional padded (padded.length - places) none)).text.asString

end Layout

end TextGrammar
