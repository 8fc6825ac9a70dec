import TextGrammar.Markup.Section

/-!
# Expansion trees

A node stands for one stretch of rule text and, once it is expanded, for the text it gave. Its
children are the sections of the rule it was expanded to, and its problems are its own together
with those of everything expanded below it.
-/

namespace TextGrammar

/-- A node of an expansion tree. -/
structure Node where
  /-- The text without its delimiters. -/
  raw : Text
  kind : SectionKind
  /-- The depth in the tree; a root has depth zero. -/
  depth : Nat
  /-- The place among the children of the same parent. -/
  index : Nat
  expanded : Bool := false
  /-- The finished text. -/
  text : Text := []
  children : List Node := []
  problems : List Diagnostic := []
  /-- The symbol that a tag refers to, once it is expanded. -/
  symbol : Option Text := none
  /-- The modifiers of a tag as written. -/
  modifiers : List Text := []
  /-- The rule that the children are the sections of. -/
  childRule : Option Text := none
  deriving Repr

namespace Node

/-- A node for a rule that is expanded on its own. -/
def root (rule : Text) : Node :=
  { raw := rule, kind := .unparsed, depth := 0, index := 0
    problems := if rule.isEmpty then [.emptyInput] else [] }

/-- A node for a rule that an action at the given depth expands. -/
def nested (depth : Nat) (rule : Text) : Node :=
  { raw := rule, kind := .unparsed, depth := depth + 1, index := 0 }

/-- The nodes for the sections of a rule. -/
def ofSections (depth : Nat) (sections : List Section) : List Node :=
  sections.mapIdx fun index s => { raw := s.raw, kind := s.kind, depth, index }

/-- Record problems after those that are there. -/
def report (n : Node) (problems : List Diagnostic) : Node :=
  { n with problems := n.problems ++ problems }

/-- Remove the escape marks from the finished text. -/
def stripEscapes (n : Node) : Node := { n with text := Escape.strip n.text }

/-- A short description. -/
def describe (n : Node) : String := s!"Node('{n.raw.asString}' {n.kind.name} d:{n.depth})"

end Node

end TextGrammar
