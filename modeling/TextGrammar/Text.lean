/-!
# Texts

Rules, names and finished texts are sequences of characters. Positions in messages count the
bytes of the UTF-8 encoding, so a text also has a length in bytes.

`Text.pieces` cuts a text at every occurrence of a character and `Text.cut?` at the first one;
`Text.placeholder` is what a reference that cannot be resolved leaves behind. `Text.isBlank` holds
of the characters with the Unicode property `White_Space`.

A backslash makes the next character literal. `Escape.strip` removes the marks from a finished
text: of a pair of backslashes one stays, any other backslash goes. `Escape.isOpen` tells whether
a text ends in a mark that still waits for its character.
-/

namespace TextGrammar

/-- A sequence of characters. -/
abbrev Text := List Char

namespace Text

/-- The text as a string. -/
def asString (t : Text) : String := String.ofList t

/-- The number of bytes of the UTF-8 encoding. -/
def byteLength (t : Text) : Nat := t.foldr (fun c n => c.utf8Size + n) 0

/-- The visible trace of an unresolved name: the name in double parentheses. -/
def placeholder (name : Text) : Text := '(' :: '(' :: name ++ [')', ')']

/-- Everything before the first `sep` and everything after it, if there is one. -/
def cut? (sep : Char) : Text → Option (Text × Text)
  | [] => none
  | c :: rest =>
    if c = sep then some ([], rest) else (cut? sep rest).map fun p => (c :: p.1, p.2)

/-- Put a character in front of the first piece. -/
def consPiece (c : Char) : List Text → List Text
  | [] => [[c]]
  | piece :: pieces => (c :: piece) :: pieces

/-- The parts between the occurrences of `sep`; there is one more part than there are
occurrences. -/
def pieces (sep : Char) (t : Text) : List Text :=
  t.foldr (fun c parts => if c = sep then [] :: parts else consPiece c parts) [[]]

/-- Join parts, putting `sep` between neighbours. -/
def join (sep : Text) : List Text → Text
  | [] => []
  | [part] => part
  | part :: parts => part ++ sep ++ join sep parts

@[simp] theorem byteLength_nil : byteLength [] = 0 := rfl

@[simp] theorem byteLength_cons (c : Char) (t : Text) :
    byteLength (c :: t) = c.utf8Size + t.byteLength := rfl

@[simp] theorem byteLength_append (a b : Text) :
    byteLength (a ++ b) = a.byteLength + b.byteLength := by
  induction a with
  | nil => exact (Nat.zero_add _).symm
  | cons c a ih => rw [List.cons_append, byteLength_cons, byteLength_cons, ih, Nat.add_assoc]

@[simp] theorem pieces_nil (sep : Char) : pieces sep [] = [[]] := rfl

theorem pieces_cons (sep c : Char) (t : Text) :
    pieces sep (c :: t) = if c = sep then [] :: pieces sep t else consPiece c (pieces sep t) :=
  rfl

theorem consPiece_ne_nil (c : Char) (parts : List Text) : consPiece c parts ≠ [] := by
  cases parts <;> simp [consPiece]

theorem pieces_ne_nil (sep : Char) (t : Text) : pieces sep t ≠ [] := by
  cases t with
  | nil => simp
  | cons c t =>
    rw [pieces_cons]
    split
    · simp
    · exact consPiece_ne_nil c _

/-! ### Blanks -/

/-- Whether a character is white space. -/
def isBlank (c : Char) : Bool :=
  let n := c.toNat
  (9 ≤ n && n ≤ 13) || n == 0x20 || n == 0x85 || n == 0xA0 || n == 0x1680 ||
    (0x2000 ≤ n && n ≤ 0x200A) || n == 0x2028 || n == 0x2029 || n == 0x202F || n == 0x205F ||
    n == 0x3000

/-- Remove the blanks at both ends. -/
def trim (t : Text) : Text := ((t.dropWhile isBlank).reverse.dropWhile isBlank).reverse

/-- The number of words, which are stretches without blanks; `inWord` says that one is going on. -/
def countWordsFrom : (inWord : Bool) → Text → Nat
  | _, [] => 0
  | inWord, c :: rest =>
    if isBlank c then countWordsFrom false rest
    else (if inWord then 0 else 1) + countWordsFrom true rest

/-- The number of words. -/
def countWords (t : Text) : Nat := countWordsFrom false t

end Text

/-! ### Escape marks -/

namespace Escape

/-- The escape mark. -/
def mark : Char := '\\'

/-- Remove the escape marks of a text; `escaped` says that a mark stands right before it. -/
def stripFrom : Bool → Text → Text
  | _, [] => []
  | escaped, c :: rest =>
    if c = mark ∧ escaped = false then stripFrom true rest else c :: stripFrom false rest

/-- Remove the escape marks of a text. -/
def strip (t : Text) : Text := stripFrom false t

/-- Whether a text ends in a mark that waits for its character. -/
def isOpen (t : Text) : Bool :=
  t.foldl (fun escaped c => !escaped && c == mark) false

/-- Put a mark before every character that `special` holds of. -/
def quote (special : Char → Bool) (t : Text) : Text :=
  t.flatMap fun c => if special c then [mark, c] else [c]

@[simp] theorem strip_nil : strip [] = [] := rfl

/-- Stripping undoes quoting, if the mark itself is quoted. -/
theorem strip_quote (special : Char → Bool) (h : special mark = true) (t : Text) :
    strip (quote special t) = t := by
  induction t with
  | nil => rfl
  | cons c t ih =>
    simp only [strip] at ih
    by_cases hc : special c = true
    · simp [strip, quote, hc, stripFrom, mark]
      simpa [quote, mark] using ih
    · have hm : c ≠ mark := fun e => hc (e ▸ h)
      simp [strip, quote, hc, stripFrom, hm]
      simpa [quote] using ih

end Escape

end TextGrammar
