import TextGrammar.Decimal

/-!
# Tokens of JSON texts

`Json.lex?` cuts a text into tokens, one character at a time. It refuses a text with a character
that no token admits: an unescaped control character in a string, an escape sequence that is not
one of the format's, half of a surrogate pair, a number with a leading zero or without digits, a
word other than the three constants. A number beyond the range of double precision is refused too.

`Json.double?` is the binary number that a number of a text stands for. It is near to the number
but not always the nearest one: reading keeps the digits that fit into 64 bits and then multiplies
or divides by a power of ten, and each step rounds. So the shortest decimal of a binary number may
read back as a neighbour of it. A number that would become infinite is out of range and stands for
none. One that is too near to zero becomes zero and keeps its sign.
-/

namespace TextGrammar.Json

/-! ### Numbers in double precision -/

/-- Append digits to a number while it stays within 64 bits. What is left over starts with the first
digit that does not fit. -/
def takeDigits (taken : Nat) : Text → Nat × Text
  | [] => (taken, [])
  | c :: rest =>
    let next := taken * 10 + Numeral.digitValue c
    if next < UInt64.size then takeDigits next rest else (taken, c :: rest)

/-- The decimal that is left of a numeral. Digits before the point that do not fit count as zeros.
Those after the point are tried in any case, and count as absent once one of them does not fit. -/
def kept (n : Numeral) : Decimal :=
  let fraction := n.fraction.getD []
  let (whole, dropped) := takeDigits 0 n.whole
  let (digits, ignored) := takeDigits whole fraction
  ⟨n.sign == some '-', digits,
    n.exponentValue + dropped.length - (fraction.length - ignored.length : Nat)⟩

/-- The largest exponent whose power of ten is finite. -/
def maxPower : Nat := 308

/-- The nearest binary number to a power of ten. -/
def powerOfTen (k : Nat) : Float := Float.ofScientific 1 false k

/-- Digits times a power of ten, if that is finite. A power below the range of divisors is divided
out in two steps, and the second one is enough to make zero of whatever is smaller still. -/
def scale? (digits : Nat) (exponent : Int) : Option Float :=
  let x := Float.ofNat digits
  if exponent < 0 then
    let k := exponent.natAbs
    some (x / powerOfTen (min k maxPower) / powerOfTen (min (k - maxPower) maxPower))
  else if digits = 0 then some 0
  else if maxPower < exponent then none
  else
    let y := x * powerOfTen exponent.toNat
    if y.isInf then none else some y

/-- The binary number that a numeral stands for, if it is in range. -/
def double? (n : Numeral) : Option Float :=
  let d := kept n
  (scale? d.digits d.exponent).map fun x => if d.negative then -x else x

/-! ### Tokens -/

/-- A token. -/
inductive Token where
  | openArray
  | closeArray
  | openObject
  | closeObject
  | comma
  | colon
  | null
  | bool (value : Bool)
  | number (value : Numeral)
  | string (value : Text)
  deriving DecidableEq, Repr

/-- Where in a token a character stands. Texts under way hold their newest character first. -/
inductive Mode where
  | between
  | word (read : Text)
  | number (read : Text)
  | string (read : Text)
  /-- After a backslash. -/
  | escape (read : Text)
  /-- After `\u` and so many digits of the given value; `high` is the first half of a pair. -/
  | unit (read : Text) (high : Option Nat) (count value : Nat)
  /-- After the first half of a pair. -/
  | half (read : Text) (high : Nat)
  /-- After the first half of a pair and a backslash. -/
  | halfEscape (read : Text) (high : Nat)
  deriving Repr

/-- A cut under way, the newest token first. -/
structure Lexer where
  mode : Mode := .between
  tokens : List Token := []
  deriving Repr

namespace Lexer

/-- White space between tokens. -/
def isSpace (c : Char) : Bool := c == ' ' || c == '\t' || c == '\n' || c == '\r'

/-- Characters that a number may hold. -/
def isNumeric (c : Char) : Bool :=
  c.isDigit || c == '-' || c == '+' || c == '.' || c == 'e' || c == 'E'

/-- The numeral that a text is, if it has the form of the format and is in range. -/
def number? (t : Text) : Option Numeral := do
  let n ← Numeral.read? t
  let plain := n.sign != some '+' && !n.whole.isEmpty && n.fraction != some [] &&
    (n.whole.length == 1 || n.whole.head? != some '0')
  if plain && (double? n).isSome then some n else none

/-- The constant that a word names. -/
def constant? (word : Text) : Option Token :=
  if word = "true".toList then some (.bool true)
  else if word = "false".toList then some (.bool false)
  else if word = "null".toList then some .null
  else none

/-- Add a token; what follows is between tokens. -/
def emit (s : Lexer) (token : Token) : Lexer := ⟨.between, token :: s.tokens⟩

/-- Read a character between tokens. -/
def start? (s : Lexer) (c : Char) : Option Lexer :=
  if isSpace c then some { s with mode := .between }
  else if c = '[' then some (s.emit .openArray)
  else if c = ']' then some (s.emit .closeArray)
  else if c = '\x7b' then some (s.emit .openObject)
  else if c = '\x7d' then some (s.emit .closeObject)
  else if c = ',' then some (s.emit .comma)
  else if c = ':' then some (s.emit .colon)
  else if c = '"' then some { s with mode := .string [] }
  else if c = '-' || c.isDigit then some { s with mode := .number [c] }
  else if c.isLower then some { s with mode := .word [c] }
  else none

/-- End a word or a number. -/
def flush? (s : Lexer) : Option Lexer :=
  match s.mode with
  | .between => some s
  | .word read => (constant? read.reverse).map s.emit
  | .number read => (number? read.reverse).map fun n => s.emit (.number n)
  | _ => none

/-- The character that an escape of one letter stands for. -/
def simpleEscape? (c : Char) : Option Char :=
  match c with
  | '"' | '\\' | '/' => some c
  | 'b' => some '\x08'
  | 'f' => some '\x0c'
  | 'n' => some '\n'
  | 'r' => some '\r'
  | 't' => some '\t'
  | _ => none

/-- Whether a unit is the first half of a surrogate pair. -/
def isHigh (unit : Nat) : Bool := 0xD800 ≤ unit && unit < 0xDC00

/-- Whether a unit is the second half of a surrogate pair. -/
def isLow (unit : Nat) : Bool := 0xDC00 ≤ unit && unit < 0xE000

/-- The place after a whole unit. -/
def unitMode? (read : Text) (high : Option Nat) (unit : Nat) : Option Mode :=
  match high with
  | some first =>
    if isLow unit then
      some (.string (Char.ofNat (0x10000 + (first - 0xD800) * 0x400 + (unit - 0xDC00)) :: read))
    else none
  | none =>
    if isHigh unit then some (.half read unit)
    else if isLow unit then none
    else some (.string (Char.ofNat unit :: read))

/-- The place after one more character of a string. -/
def stringMode? (read : Text) (c : Char) : Option Mode :=
  if c = '\\' then some (.escape read)
  else if c < ' ' then none
  else some (.string (c :: read))

/-- The place after one more digit of a unit. -/
def digitMode? (read : Text) (high : Option Nat) (count value : Nat) (c : Char) : Option Mode :=
  if c.isDigit || ('a' ≤ c && c ≤ 'f') || ('A' ≤ c && c ≤ 'F') then
    let value := value * 16 + Numeral.digitValue c
    if count = 3 then unitMode? read high value else some (.unit read high (count + 1) value)
  else none

/-- Read one character. -/
def step? (s : Lexer) (c : Char) : Option Lexer :=
  let go (mode : Option Mode) : Option Lexer := mode.map fun m => { s with mode := m }
  match s.mode with
  | .between => s.start? c
  | .word read =>
    if c.isAlpha then go (some (.word (c :: read))) else s.flush?.bind fun s => s.start? c
  | .number read =>
    if isNumeric c then go (some (.number (c :: read)))
    else s.flush?.bind fun s => s.start? c
  | .string read =>
    if c = '"' then some (s.emit (.string read.reverse)) else go (stringMode? read c)
  | .escape read =>
    if c = 'u' then go (some (.unit read none 0 0))
    else go ((simpleEscape? c).map fun e => .string (e :: read))
  | .unit read high count value => go (digitMode? read high count value c)
  | .half read high => if c = '\\' then go (some (.halfEscape read high)) else none
  | .halfEscape read high => if c = 'u' then go (some (.unit read (some high) 0 0)) else none

end Lexer

/-- The tokens of a text. -/
def lex? (t : Text) : Option (List Token) := do
  let s ← t.foldlM Lexer.step? {}
  let s ← s.flush?
  return s.tokens.reverse

end TextGrammar.Json
