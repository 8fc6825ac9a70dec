import TextGrammar.Diagnostic
import TextGrammar.Markup.Nesting

/-!
# Sections, tags and actions

A rule is plain text with tags `#symbol.modifier#` and actions `[target:rules]` in it. `scan` cuts
a rule into its sections. It never fails: from a malformed rule it takes what sections there are
and reports what is wrong. Empty tags and actions are reported and kept; an empty stretch of plain
text is no section. Text after an opening mark that is never closed is a plain section.

The text of a tag is a clause such as `story.capitalize`, a symbol with modifiers, among actions
that run before the symbol is looked up. `Tag.read` takes it apart. A tag without a clause stands
for nothing; in a tag with more than one the symbol is ambiguous.

The text of an action is `target:rules`, a push; `target:POP`, a pop; or, without a colon, a rule
that is evaluated for its effects. A push is undone by a pop of its target.
-/

namespace TextGrammar

/-- What a stretch of rule text stands for. -/
inductive SectionKind where
  /-- Text that is still to be scanned. -/
  | unparsed
  /-- Text that stands for itself. -/
  | plain
  /-- A reference to a symbol. -/
  | tag
  /-- A push, a pop or an evaluation. -/
  | action
  deriving DecidableEq, Repr

/-- The name of a kind. -/
def SectionKind.name : SectionKind → String
  | unparsed => "unparsed"
  | plain => "plain"
  | tag => "tag"
  | action => "action"

/-- A section: its kind and its text without the delimiters, escape marks kept. -/
structure Section where
  kind : SectionKind
  raw : Text
  deriving DecidableEq, Repr

namespace Section

/-- The text without its escape marks. -/
def unescaped (s : Section) : Text := Escape.strip s.raw

/-- The text with the delimiters it was cut out of. -/
def source (s : Section) : Text :=
  match s.kind with
  | .tag => '#' :: s.raw ++ ['#']
  | .action => '[' :: s.raw ++ [']']
  | .plain | .unparsed => s.raw

end Section

/-- The sections of a rule and the problems found on the way, both in order. -/
structure Scanned where
  sections : List Section
  problems : List Diagnostic
  deriving DecidableEq, Repr

/-- A scan under way. The lists hold their newest element first. -/
structure Scanner where
  nesting : Nesting := {}
  /-- Bytes read so far. -/
  offset : Nat := 0
  /-- The characters since the last delimiter. -/
  pending : Text := []
  sections : List Section := []
  problems : List Diagnostic := []
  deriving Repr

namespace Scanner

/-- End the pending text as a plain section, unless it is empty. -/
def endPlain (s : Scanner) : Scanner :=
  if s.pending.isEmpty then s
  else { s with pending := [], sections := ⟨.plain, s.pending.reverse⟩ :: s.sections }

/-- End the pending text as a tag or an action, and report it with `empty` if it has no text. -/
def endAs (s : Scanner) (kind : SectionKind) (empty : Nat → Diagnostic) : Scanner :=
  { s with
    pending := []
    sections := ⟨kind, s.pending.reverse⟩ :: s.sections
    problems := if s.pending.isEmpty then empty s.offset :: s.problems else s.problems }

/-- Move over a character without keeping it. -/
def skip (s : Scanner) (c : Char) : Scanner :=
  { s with nesting := s.nesting.advance c, offset := s.offset + c.utf8Size }

/-- Move over a character and keep it in the pending text. -/
def keep (s : Scanner) (c : Char) : Scanner :=
  { s.skip c with pending := c :: s.pending }

/-- Read one character. -/
def step (s : Scanner) (c : Char) : Scanner :=
  match s.nesting.mark c with
  | .text => s.keep c
  | .openAction | .openTag => s.endPlain.skip c
  | .closeAction => (s.endAs .action .emptyAction).skip c
  | .closeTag => (s.endAs .tag .emptyTag).skip c

/-- What a place at the end of a rule has left open. -/
def unfinished (n : Nesting) : List Diagnostic :=
  (if n.inTag then [.unclosedTag] else []) ++
    (if 0 < n.depth then [.tooManyOpen] else []) ++
      (if n.depth < 0 then [.tooManyClose] else [])

/-- End the scan. -/
def finish (s : Scanner) : Scanned :=
  { sections := s.endPlain.sections.reverse
    problems := s.problems.reverse ++ unfinished s.nesting }

end Scanner

/-- Cut a rule into its sections. -/
def scan (rule : Text) : Scanned := (rule.foldl Scanner.step {}).finish

/-! ### Tags -/

namespace Tag

/-- A tag with one clause, taken apart. -/
structure Clause where
  symbol : Text
  /-- The modifiers as written, leftmost first. -/
  modifiers : List Text
  /-- The sections other than the clause, which run first. -/
  preactions : List Section
  /-- What the scan of the tag's text reported. -/
  problems : List Diagnostic
  deriving DecidableEq, Repr

/-- What the text of a tag says. -/
inductive Reading where
  /-- There is more than one clause. -/
  | ambiguous
  /-- There is no clause. -/
  | silent
  | clause (clause : Clause)
  deriving DecidableEq, Repr

/-- Take the text of a tag apart. Points separate the symbol from its modifiers and these from
each other. -/
def read (tag : Text) : Reading :=
  let scanned := scan tag
  match scanned.sections.filter (·.kind == .plain) with
  | [] => .silent
  | [main] =>
    .clause
      { symbol := (Text.pieces '.' main.raw).headD []
        modifiers := (Text.pieces '.' main.raw).tail
        preactions := scanned.sections.filter (·.kind != .plain)
        problems := scanned.problems }
  | _ :: _ :: _ => .ambiguous

end Tag

/-! ### Actions -/

/-- What an action does. -/
inductive Action where
  /-- Put rules over a symbol. -/
  | push (target rules : Text)
  /-- Take the last pushed rules of a symbol away. -/
  | pop (target : Text)
  /-- Expand a rule and drop its text. -/
  | evaluate (rule : Text)
  deriving DecidableEq, Repr

namespace Action

/-- The word that makes a pop of what would be a push. -/
def popWord : Text := ['P', 'O', 'P']

/-- Take the text of an action apart at its first colon. -/
def read (raw : Text) : Action :=
  match Text.cut? ':' raw with
  | none => evaluate raw
  | some (target, rules) => if rules = popWord then pop target else push target rules

/-- The text before the colon: a symbol's name, or the whole rule. -/
def target : Action → Text
  | push target _ | pop target | evaluate target => target

/-- The pop that undoes a push; nothing else is undone. -/
def undo? : Action → Option Action
  | push target _ => some (pop target)
  | pop _ | evaluate _ => none

end Action

end TextGrammar
