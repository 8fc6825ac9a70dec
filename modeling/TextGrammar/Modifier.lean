import TextGrammar.Named
import TextGrammar.Node
import TextGrammar.Text.Visible

/-!
# Modifiers

A modifier turns a finished text and its parameters into another text. A registry keeps modifiers
under names; the last one registered under a name counts. The modifiers of a tag are applied from
left to right, and one that is not registered leaves a placeholder behind the text.

A modifier is referred to by its name alone, `capitalize`, or with parameters, `replace(a,b)`.
`ModifierSpec.read` takes the reference apart. Parameters are separated by every comma; an empty
list of parameters, or one that is not closed, is part of the name.
-/

namespace TextGrammar

/-- A reference to a modifier. -/
structure ModifierSpec where
  name : Text
  params : List Text
  deriving DecidableEq, Repr

namespace ModifierSpec

/-- Everything is the name. -/
def bare (spec : Text) : ModifierSpec := ⟨spec, []⟩

/-- Take a reference apart: the name ends at the first `(`, if it is not empty, and the
parameters at the first `)` after that. -/
def read (spec : Text) : ModifierSpec :=
  match Text.cut? '(' spec with
  | none | some ([], _) => bare spec
  | some (name, rest) =>
    match Text.cut? ')' rest with
    | none | some ([], _) => bare spec
    | some (inner, _) => ⟨name, Text.pieces ',' inner⟩

end ModifierSpec

/-- A function on finished texts, with parameters. -/
abbrev Modifier := Text → List Text → Text

/-- Modifiers under their names. -/
abbrev Registry := Named Modifier

namespace Registry

/-- Apply the modifier that a reference names to the text of a node. -/
def apply (r : Registry) (n : Node) (reference : Text) : Node :=
  let spec := ModifierSpec.read reference
  match r.find? spec.name with
  | some f => { n with text := f n.text spec.params }
  | none =>
    { n with text := n.text ++ Text.placeholder ('.' :: spec.name) }.report
      [.missingModifier spec.name]

/-- Apply the modifiers of a tag. -/
def applyAll (r : Registry) (n : Node) : Node := n.modifiers.foldl r.apply n

/-- The names in order of their characters. -/
def sortedNames (r : Registry) : List Text :=
  r.names.mergeSort fun a b => !List.lex b a fun x y => x.toNat < y.toNat

/-- A description that lists the names. -/
def describe (r : Registry) : String :=
  let names := r.sortedNames.map fun name => (Text.quoted name).asString
  "ModifierRegistry \x7b modifiers: [" ++ ", ".intercalate names ++ "] \x7d"

end Registry

end TextGrammar
