import TextGrammar.Decimal

/-!
# RON values and words

A value of the object notation that definitions and settings may be written in. Names of structures
and of variants carry no meaning here and are not kept: a structure is a map from its field names,
and a tuple is a list.

Each function on words reads one thing from the front of a text and returns it with the rest: blanks
and comments, identifiers, numbers, characters and strings. Block comments nest. An integer may
have a base and underscores; what is no integer of 64 bits is read as a decimal fraction.
-/

namespace TextGrammar

/-- A RON value. -/
inductive Ron where
  | unit
  | bool (value : Bool)
  /-- An integer written without a sign. -/
  | unsigned (value : Nat)
  /-- An integer written with a sign. -/
  | signed (value : Int)
  | float (value : Float)
  | char (value : Char)
  | string (value : Text)
  | none
  | some (value : Ron)
  | list (items : List Ron)
  | map (entries : List (Ron × Ron))

namespace Ron

/-- The text of a string. -/
def text? : Ron → Option Text
  | string t => .some t
  | _ => .none

/-- The texts of a list of strings. -/
def texts? : Ron → Option (List Text)
  | list items => items.mapM text?
  | _ => .none

/-- A number of any form, in double precision. -/
def number? : Ron → Option Float
  | unsigned n => .some (Float.ofNat n)
  | signed i => .some (Float.ofInt i)
  | float x => .some x
  | _ => .none

/-- The values of a list of numbers. -/
def numbers? : Ron → Option (List Float)
  | list items => items.mapM number?
  | _ => .none

/-! ### Words -/

/-- What is being skipped: blanks, a comment up to the end of the line, or a block comment inside
so many others. -/
inductive Skipping where
  | blanks
  | line
  | block (outer : Nat)

/-- White space. -/
def isSpace (c : Char) : Bool := c == ' ' || c == '\t' || c == '\n' || c == '\r'

/-- Skip blanks and comments; a block comment that is not closed is refused. -/
def skipFrom? : Skipping → Text → Option Text
  | .blanks, [] => .some []
  | .blanks, '/' :: '/' :: rest => skipFrom? .line rest
  | .blanks, '/' :: '*' :: rest => skipFrom? (.block 0) rest
  | .blanks, c :: rest =>
    if isSpace c then skipFrom? .blanks rest else if c = '/' then .none else .some (c :: rest)
  | .line, [] => .some []
  | .line, c :: rest => skipFrom? (if c = '\n' then .blanks else .line) rest
  | .block _, [] => .none
  | .block outer, '/' :: '*' :: rest => skipFrom? (.block (outer + 1)) rest
  | .block 0, '*' :: '/' :: rest => skipFrom? .blanks rest
  | .block (outer + 1), '*' :: '/' :: rest => skipFrom? (.block outer) rest
  | .block outer, _ :: rest => skipFrom? (.block outer) rest

/-- Skip blanks and comments. -/
def skip? (t : Text) : Option Text := skipFrom? .blanks t

/-- Take a given text off the front. -/
def take? (word : String) (t : Text) : Option Text :=
  if word.toList.isPrefixOf t then .some (t.drop word.length) else .none

/-! ### Identifiers -/

/-- Characters that an identifier begins with. -/
def isIdentFirst (c : Char) : Bool := c.isAlpha || c == '_'

/-- Characters that an identifier goes on with. -/
def isIdentRest (c : Char) : Bool := c.isAlphanum || c == '_'

/-- Characters of a raw identifier. -/
def isIdentRaw (c : Char) : Bool := isIdentRest c || c == '.' || c == '+' || c == '-'

/-- Take a given word off the front, if no identifier goes on after it. -/
def takeWord? (word : String) (t : Text) : Option Text := do
  let rest ← take? word t
  if (rest.head?.map isIdentRest).getD false then failure
  return rest

/-- An identifier; behind `r#` it is a raw one. One that a character of raw identifiers follows is
refused. -/
def identifier? (t : Text) : Option (Text × Text) :=
  match t with
  | 'r' :: '"' :: _ | ['r'] => .none
  | 'r' :: '#' :: rest =>
    let ident := rest.takeWhile isIdentRaw
    if ident.isEmpty then .none else .some (ident, rest.dropWhile isIdentRaw)
  | t =>
    let ident := t.takeWhile isIdentRest
    if !(t.head?.map isIdentFirst).getD false || ident.length < (t.takeWhile isIdentRaw).length
    then .none
    else .some (ident, t.dropWhile isIdentRest)

/-! ### Numbers -/

/-- Characters of integers. -/
def isIntegral (c : Char) : Bool :=
  c.isDigit || ('a' ≤ c && c ≤ 'f') || ('A' ≤ c && c ≤ 'F') || c == '_'

/-- Characters of decimal fractions. -/
def isFractional (c : Char) : Bool :=
  c.isDigit || c == 'e' || c == 'E' || c == '.' || c == '+' || c == '-' || c == '_'

/-- The base that a text announces, and its digits. -/
def splitBase : Text → Nat × Text
  | '0' :: 'x' :: rest => (16, rest)
  | '0' :: 'b' :: rest => (2, rest)
  | '0' :: 'o' :: rest => (8, rest)
  | t => (10, t)

/-- An integer without a sign, of any size. -/
def natural? (t : Text) : Option (Nat × Text) :=
  let (base, t) := splitBase t
  let read := t.takeWhile isIntegral
  let digits := read.filter (· != '_')
  if read.isEmpty || read.head? == Option.some '_' ||
      digits.any fun c => base ≤ Numeral.digitValue c then .none
  else .some (Numeral.valueIn base digits, t.dropWhile isIntegral)

/-- An integer of 64 bits without a sign. -/
def unsigned? (t : Text) : Option (Nat × Text) :=
  (natural? t).bind fun (n, rest) => if n < UInt64.size then .some (n, rest) else .none

/-- An integer of 64 bits, with or without a sign. -/
def integer? (t : Text) : Option (Ron × Text) :=
  match t with
  | '-' :: rest => (natural? rest).bind fun (n, rest) =>
    if 2 * n ≤ UInt64.size then .some (.signed (-(n : Int)), rest) else .none
  | '+' :: rest => (natural? rest).bind fun (n, rest) =>
    if 2 * n < UInt64.size then .some (.signed n, rest) else .none
  | t => (unsigned? t).map fun (n, rest) => (.unsigned n, rest)

/-- A decimal fraction; it has a digit before or after the point. -/
def fraction? (t : Text) : Option (Ron × Text) := do
  let read := t.takeWhile isFractional
  let n ← Numeral.read? read
  if n.whole.isEmpty && (n.fraction.getD []).isEmpty then failure
  return (.float n.toDecimal.toFloat, t.dropWhile isFractional)

/-- A number. -/
def numberLiteral? (t : Text) : Option (Ron × Text) :=
  let unsigned := (Numeral.takeSign t).2
  if (unsigned.takeWhile isIntegral).length < (unsigned.takeWhile isFractional).length then
    fraction? t
  else (integer? t).or (fraction? t)

/-! ### Characters and strings -/

/-- A hexadecimal digit. -/
def hexValue? (c : Char) : Option Nat :=
  if c.isDigit || ('a' ≤ c && c ≤ 'f') || ('A' ≤ c && c ≤ 'F') then
    .some (Numeral.digitValue c)
  else .none

/-- The character of a code point. -/
def char? (n : Nat) : Option Char :=
  if h : n.isValidChar then .some (Char.ofNatAux n h) else .none

/-- What stands after a backslash. -/
def escape? : Text → Option (Char × Text)
  | 'n' :: rest => .some ('\n', rest)
  | 'r' :: rest => .some ('\r', rest)
  | 't' :: rest => .some ('\t', rest)
  | '0' :: rest => .some ('\x00', rest)
  | 'x' :: high :: low :: rest => do
    let high ← hexValue? high
    let low ← hexValue? low
    return (Char.ofNat (16 * high + low), rest)
  | 'u' :: '\x7b' :: rest => do
    let digits := rest.takeWhile (· != '\x7d')
    let values ← digits.mapM hexValue?
    if digits.isEmpty || 6 < digits.length then failure
    let c ← char? (values.foldl (fun n v => 16 * n + v) 0)
    match rest.drop digits.length with
    | _ :: rest => return (c, rest)
    | [] => failure
  | c :: rest => if c = '\'' ∨ c = '"' ∨ c = '\\' then .some (c, rest) else .none
  | [] => .none

/-- The inside of a string as it is written, and what follows its closing quote; a quote right
behind a backslash, which `escaped` tells of, does not close it. -/
def cutAtQuote? : (escaped : Bool) → Text → Option (Text × Text)
  | _, [] => .none
  | escaped, c :: rest =>
    if c = '"' && !escaped then .some ([], rest)
    else (cutAtQuote? (c = '\\' && !escaped) rest).map fun p => (c :: p.1, p.2)

/-- What the inside of a string stands for; `fuel` bounds the characters. -/
def unescape? : (fuel : Nat) → Text → Option Text
  | _, [] => .some []
  | 0, _ :: _ => .none
  | fuel + 1, c :: rest => do
    let (c, rest) ← if c = '\\' then escape? rest else .some (c, rest)
    return c :: (← unescape? fuel rest)

/-- The inside of a raw string, which ends at a quote with the given signs after it. -/
def rawInside? (ending : Text) : Text → Option (Text × Text)
  | [] => .none
  | c :: rest =>
    if ending.isPrefixOf (c :: rest) then .some ([], (c :: rest).drop ending.length)
    else (rawInside? ending rest).map fun p => (c :: p.1, p.2)

/-- A string, raw or with escapes. -/
def quoted? : Text → Option (Text × Text)
  | '"' :: rest => do
    let (inside, rest) ← cutAtQuote? false rest
    return (← unescape? inside.length inside, rest)
  | 'r' :: rest =>
    let signs := rest.takeWhile (· == '#')
    match rest.drop signs.length with
    | '"' :: rest => rawInside? ('"' :: signs) rest
    | _ => .none
  | _ => .none

/-- A character between single quotes. -/
def character? : Text → Option (Char × Text)
  | '\'' :: '\\' :: rest => do
    let (c, rest) ← escape? rest
    match rest with
    | '\'' :: rest => return (c, rest)
    | _ => failure
  | '\'' :: c :: '\'' :: rest => if c = '\'' then .none else .some (c, rest)
  | _ => .none

end Ron

end TextGrammar
