import TextGrammar.Decimal

/-!
# JSON values

A value of the data format, with its numbers as they are written and the members of objects in
order, repeated names included. What a repeated name means is for the reader of the value to say.

`Json.write` writes a value over several lines, each level of nesting two blanks further in. Empty
arrays and objects stay on one line. In strings the quote, the backslash and the control characters
are escaped, and every other character stands for itself.
-/

namespace TextGrammar

/-- A JSON value. -/
inductive Json where
  | null
  | bool (value : Bool)
  | number (value : Numeral)
  | string (value : Text)
  | array (items : List Json)
  | object (members : List (Text × Json))
  deriving Repr

namespace Json

/-- The text of a string. -/
def text? : Json → Option Text
  | string t => some t
  | _ => none

/-- The texts of an array of strings. -/
def texts? : Json → Option (List Text)
  | array items => items.mapM text?
  | _ => none

/-- The numeral of a number. -/
def number? : Json → Option Numeral
  | number n => some n
  | _ => none

/-- The numerals of an array of numbers. -/
def numbers? : Json → Option (List Numeral)
  | array items => items.mapM number?
  | _ => none

/-! ### Writing -/

/-- A hexadecimal digit. -/
def hexDigit (n : Nat) : Char := ("0123456789abcdef".toList)[n]?.getD '0'

/-- A character inside a string. -/
def escapeChar (c : Char) : Text :=
  match c with
  | '"' => ['\\', '"']
  | '\\' => ['\\', '\\']
  | '\n' => ['\\', 'n']
  | '\r' => ['\\', 'r']
  | '\t' => ['\\', 't']
  | '\x08' => ['\\', 'b']
  | '\x0c' => ['\\', 'f']
  | c =>
    if c < ' ' then ['\\', 'u', '0', '0', hexDigit (c.toNat / 16), hexDigit (c.toNat % 16)]
    else [c]

/-- A string with its quotes. -/
def writeString (t : Text) : Text := '"' :: t.flatMap escapeChar ++ ['"']

/-- A line break and the blanks before the next line. -/
def lineBreak (level : Nat) : Text := '\n' :: List.replicate (2 * level) ' '

mutual

/-- Write a value that stands `level` deep. -/
def writeAt (level : Nat) : Json → Text
  | null => "null".toList
  | bool b => (if b then "true" else "false").toList
  | number n => n.text
  | string t => writeString t
  | array [] => ['[', ']']
  | array (item :: items) =>
    '[' :: lineBreak (level + 1) ++ writeAt (level + 1) item ++ writeItems (level + 1) items ++
      lineBreak level ++ [']']
  | object [] => ['\x7b', '\x7d']
  | object (member :: members) =>
    '\x7b' :: lineBreak (level + 1) ++ writeMember (level + 1) member ++
      writeMembers (level + 1) members ++ lineBreak level ++ ['\x7d']

/-- Write the items after the first one. -/
def writeItems (level : Nat) : List Json → Text
  | [] => []
  | item :: items => ',' :: lineBreak level ++ writeAt level item ++ writeItems level items

/-- Write a member. -/
def writeMember (level : Nat) : Text × Json → Text
  | (name, value) => writeString name ++ [':', ' '] ++ writeAt level value

/-- Write the members after the first one. -/
def writeMembers (level : Nat) : List (Text × Json) → Text
  | [] => []
  | member :: members =>
    ',' :: lineBreak level ++ writeMember level member ++ writeMembers level members

end

/-- Write a value. -/
def write (v : Json) : Text := writeAt 0 v

end Json

end TextGrammar
