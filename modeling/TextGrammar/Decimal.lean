import TextGrammar.Text

/-!
# Decimal numbers and numerals

A decimal is a sign, a whole number of digits and a power of ten. `Decimal.ofDigits` builds the
form without trailing zeros, so a value has one form for each sign. `Decimal.toFloat` is the
nearest binary number of double precision.

A numeral is the written form of a decimal: a sign, digits, a point with digits and an exponent,
each of which may be absent. `Numeral.read?` takes a text apart into these and accepts nothing
else, and `Numeral.text` puts them together again; a format that demands more (a digit before the
point, no leading zero) asks it of the parts.
-/

namespace TextGrammar

/-- The number `± digits * 10 ^ exponent`. -/
structure Decimal where
  negative : Bool
  digits : Nat
  exponent : Int
  deriving DecidableEq, Repr

namespace Decimal

/-- Move trailing zeros of the digits into the exponent, at most `fuel` of them. -/
def trimZeros : (fuel : Nat) → Nat → Int → Nat × Int
  | 0, digits, exponent => (digits, exponent)
  | fuel + 1, digits, exponent =>
    if digits % 10 = 0 then trimZeros fuel (digits / 10) (exponent + 1) else (digits, exponent)

/-- The number of digits of a number; zero has none. -/
def width (n : Nat) : Nat := if n = 0 then 0 else (Nat.toDigits 10 n).length

/-- The decimal with these digits and this exponent, without trailing zeros. -/
def ofDigits (negative : Bool) (digits : Nat) (exponent : Int) : Decimal :=
  if digits = 0 then ⟨negative, 0, 0⟩
  else
    let p := trimZeros (width digits) digits exponent
    ⟨negative, p.1, p.2⟩

/-- Where the point stands: a number other than zero is below `10 ^ point` and not below a tenth
of that. -/
def point (d : Decimal) : Int := width d.digits + d.exponent

/-- The magnitude as a binary number of double precision. Beyond the range of these it is infinite
or zero, whatever the digits. -/
def magnitude (d : Decimal) : Float :=
  if d.digits = 0 ∨ d.point < -400 then 0
  else if 400 < d.point then 1 / 0
  else Float.ofScientific d.digits (decide (d.exponent < 0)) d.exponent.natAbs

/-- The nearest binary number of double precision. -/
def toFloat (d : Decimal) : Float := if d.negative then -d.magnitude else d.magnitude

/-- The number as a natural number, if it is one. -/
def toNat? (d : Decimal) : Option Nat :=
  if d.exponent < 0 ∨ (d.negative ∧ d.digits ≠ 0) ∨ 400 < d.exponent then none
  else some (d.digits * Nat.pow 10 d.exponent.toNat)

end Decimal

/-! ### Numerals -/

/-- The parts of a written number. -/
structure Numeral where
  /-- The sign as written. -/
  sign : Option Char
  /-- The digits before the point. -/
  whole : Text
  /-- The digits after the point, if there is a point. -/
  fraction : Option Text
  /-- The sign and the digits of the exponent, if there is one. -/
  exponent : Option (Option Char × Text)
  deriving DecidableEq, Repr

namespace Numeral

/-- The value of a digit in a base up to sixteen, whatever its case. -/
def digitValue (c : Char) : Nat :=
  if c.isDigit then c.toNat - '0'.toNat
  else if 'a' ≤ c ∧ c ≤ 'f' then c.toNat - 'a'.toNat + 10
  else if 'A' ≤ c ∧ c ≤ 'F' then c.toNat - 'A'.toNat + 10
  else 0

/-- The number that digits write in a base. -/
def valueIn (base : Nat) (digits : Text) : Nat :=
  digits.foldl (fun n c => n * base + digitValue c) 0

/-- A leading sign, and what follows. -/
def takeSign : Text → Option Char × Text
  | '-' :: rest => (some '-', rest)
  | '+' :: rest => (some '+', rest)
  | t => (none, t)

/-- A point with its digits, and what follows. -/
def takeFraction : Text → Option Text × Text
  | '.' :: rest => (some (rest.takeWhile Char.isDigit), rest.dropWhile Char.isDigit)
  | t => (none, t)

/-- Read an exponent that makes up the whole text; it has at least one digit. -/
def readExponent? : Text → Option (Option (Option Char × Text))
  | [] => some none
  | c :: rest =>
    let (sign, digits) := takeSign rest
    if (c = 'e' ∨ c = 'E') ∧ digits ≠ [] ∧ digits.all Char.isDigit then
      some (some (sign, digits))
    else none

/-- Take a text apart that is a numeral as a whole. -/
def read? (t : Text) : Option Numeral :=
  let (sign, unsigned) := takeSign t
  let (fraction, rest) := takeFraction (unsigned.dropWhile Char.isDigit)
  (readExponent? rest).map fun exponent =>
    ⟨sign, unsigned.takeWhile Char.isDigit, fraction, exponent⟩

/-- The text of a numeral; a small `e` marks the exponent. -/
def text (n : Numeral) : Text :=
  let fraction := n.fraction.elim [] fun digits => '.' :: digits
  let exponent := n.exponent.elim [] fun (sign, digits) => 'e' :: sign.toList ++ digits
  n.sign.toList ++ n.whole ++ fraction ++ exponent

/-- The exponent as a number. -/
def exponentValue (n : Numeral) : Int :=
  match n.exponent with
  | none => 0
  | some (some '-', digits) => -(valueIn 10 digits : Int)
  | some (_, digits) => valueIn 10 digits

/-- The decimal that a numeral writes. -/
def toDecimal (n : Numeral) : Decimal :=
  let fraction := n.fraction.getD []
  .ofDigits (n.sign == some '-') (valueIn 10 (n.whole ++ fraction))
    (n.exponentValue - fraction.length)

end Numeral

end TextGrammar
