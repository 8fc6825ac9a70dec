import TextGrammar.Text

/-!
# Diagnostics

`Diagnostic` lists the problems that are recorded while a rule is scanned or expanded: the work
goes on and leaves a visible placeholder where something is missing. `Diagnostic.message` has the
wording.
-/

namespace TextGrammar

/-- A problem that is recorded and does not stop the work. -/
inductive Diagnostic where
  /-- A tag without text; the position of its end, in bytes. -/
  | emptyTag (offset : Nat)
  /-- An action without text; the position of its end, in bytes. -/
  | emptyAction (offset : Nat)
  /-- The rule ends inside a tag. -/
  | unclosedTag
  /-- The rule opens more brackets than it closes. -/
  | tooManyOpen
  /-- The rule closes more brackets than it opens. -/
  | tooManyClose
  /-- Nothing is declared or pushed under this name. -/
  | missingSymbol (name : Text)
  /-- The symbol is declared, and no rule can be taken from it. -/
  | emptySymbol (name : Text)
  /-- No modifier is registered under this name. -/
  | missingModifier (name : Text)
  /-- A pop found no pushed rules. -/
  | popWithoutPush (name : Text)
  /-- A tag lies deeper than the cap allows. -/
  | depthExceeded (name : Text) (cap : Nat)
  /-- The text to expand is empty. -/
  | emptyInput
  deriving DecidableEq, Repr

/-- The wording of a diagnostic. -/
def Diagnostic.message : Diagnostic → String
  | emptyTag offset => s!"{offset}: empty tag"
  | emptyAction offset => s!"{offset}: empty action"
  | unclosedTag => "Unclosed tag"
  | tooManyOpen => "Too many ["
  | tooManyClose => "Too many ]"
  | missingSymbol name => s!"No symbol for '{name.asString}'"
  | emptySymbol name => s!"Symbol '{name.asString}' has no rules to select"
  | missingModifier name => s!"Missing modifier {name.asString}"
  | popWithoutPush name => s!"Can't pop: no pushed rules for '{name.asString}'"
  | depthExceeded name cap => s!"Expansion of '{name.asString}' exceeded max depth {cap}"
  | emptyInput => "Empty input for node"

end TextGrammar
