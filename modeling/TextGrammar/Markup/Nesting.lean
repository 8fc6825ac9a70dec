import TextGrammar.Text

/-!
# Nesting and alternatives

Reading a rule from the left, three things decide what the next character means: how many brackets
are open, whether a tag is open, and whether an escape mark stands right before it. `Nesting` holds
them and `Nesting.advance` moves over one character. The scan for sections and the split into
alternatives both follow it, so they agree on what is nested.

`Nesting.Balanced` says of a text that it closes every bracket it opens, and none before opening it.

The rules of a push are alternatives between separators. A separator that is escaped, or stands
inside a tag or brackets, does not count (`Alternatives.split`).
-/

namespace TextGrammar

/-- Where in a rule a character stands. -/
structure Nesting where
  /-- Brackets opened less brackets closed. The number has no bounds; a counter of 32 bits agrees
  with it on every text of fewer than `2 ^ 31` characters. -/
  depth : Int := 0
  /-- A tag is open. -/
  inTag : Bool := false
  /-- An escape mark stands right before the character. -/
  escaped : Bool := false
  deriving DecidableEq, Repr

namespace Nesting

/-- The place after one more character. -/
def advance (n : Nesting) (c : Char) : Nesting :=
  if n.escaped then { n with escaped := false }
  else if c = '\\' then { n with escaped := true }
  else if c = '[' then { n with depth := n.depth + 1 }
  else if c = ']' then { n with depth := n.depth - 1 }
  else if c = '#' ∧ n.depth = 0 then { n with inTag := !n.inTag }
  else n

/-- The place after a text. -/
def after (n : Nesting) (t : Text) : Nesting := t.foldl advance n

/-- Outside every tag and bracket, and not escaped. -/
def isTop (n : Nesting) : Bool := n.depth == 0 && !n.inTag && !n.escaped

/-- The part a character plays where it stands. -/
inductive Mark where
  | text
  | openAction
  | closeAction
  | openTag
  | closeTag
  deriving DecidableEq, Repr

/-- What `c` does at this place. Inside a tag brackets only count, and inside brackets a `#` is
text. -/
def mark (n : Nesting) (c : Char) : Mark :=
  if n.escaped then .text
  else if c = '[' ∧ n.depth = 0 ∧ n.inTag = false then .openAction
  else if c = ']' ∧ n.depth = 1 ∧ n.inTag = false then .closeAction
  else if c = '#' ∧ n.depth = 0 then if n.inTag then .closeTag else .openTag
  else .text

/-- Whether `c` separates alternatives at this place. A separator that is itself markup never
does. -/
def splitsAt (n : Nesting) (separator c : Char) : Bool :=
  n.isTop && c == separator && c != '\\' && c != '[' && c != ']' && c != '#'

@[simp] theorem after_nil (n : Nesting) : n.after [] = n := rfl

@[simp] theorem after_cons (n : Nesting) (c : Char) (t : Text) :
    n.after (c :: t) = (n.advance c).after t := rfl

theorem after_append (n : Nesting) (s t : Text) : n.after (s ++ t) = (n.after s).after t :=
  List.foldl_append

end Nesting

/-- No prefix closes more brackets than it opens, the whole closes all of them, and no escape mark
is left open. -/
def Nesting.Balanced (t : Text) : Prop :=
  (∀ k, 0 ≤ (Nesting.after {} (t.take k)).depth) ∧
    (Nesting.after {} t).depth = 0 ∧ (Nesting.after {} t).escaped = false

/-! ### Alternatives -/

namespace Alternatives

/-- The alternatives of a text that begins at the place `n`. -/
def splitFrom (separator : Char) (n : Nesting) : Text → List Text
  | [] => [[]]
  | c :: rest =>
    let parts := splitFrom separator (n.advance c) rest
    if n.splitsAt separator c then [] :: parts else Text.consPiece c parts

/-- The alternatives of a text. -/
def split (separator : Char) (t : Text) : List Text := splitFrom separator {} t

theorem splitFrom_ne_nil (separator : Char) (n : Nesting) (t : Text) :
    splitFrom separator n t ≠ [] := by
  cases t with
  | nil => simp [splitFrom]
  | cons c rest =>
    simp only [splitFrom]
    split
    · simp
    · exact Text.consPiece_ne_nil c _

end Alternatives

end TextGrammar
