import TextGrammar.Document
import TextGrammar.Ron.Reader

/-!
# Settings

How deep a grammar may expand, whether escape marks are kept in its texts, and what separates the
alternatives of a push. `Settings.readRon` reads them from a structure whose fields may all be
absent.
-/

namespace TextGrammar

/-- The settings of a grammar. -/
structure Settings where
  /-- The deepest node that may still select a rule; without a cap there is no such depth. -/
  maxDepth : Option Nat := some 128
  /-- Keep escape marks in finished texts. -/
  keepEscapes : Bool := false
  /-- Separates the alternatives of a push. -/
  separator : Char := ','
  deriving DecidableEq, Repr

namespace Settings

/-- What a field of written settings says. -/
inductive Field where
  | maxDepth (cap : Option Nat)
  | keepEscapes (keep : Bool)
  | separator (c : Char)
  /-- Nothing: the name is of no setting. -/
  | other

/-- Read the field of a name; the text goes on behind it. -/
def Field.read? (implicitSome : Bool) (fuel : Nat) (name t : Text) : Option (Field × Text) :=
  if name = "max_depth".toList then
    (Ron.optionalNatural? implicitSome t).map fun (cap, rest) => (maxDepth cap, rest)
  else do
    let (v, rest) ← Ron.partValue? implicitSome fuel t
    if name = "allow_escape_chars".toList then
      if let .bool keep := v then return (keepEscapes keep, rest) else failure
    else if name = "push_separator".toList then
      if let .char c := v then return (separator c, rest) else failure
    else return (other, rest)

/-- The value of a setting that is written once, or the given one if it is not written; one that is
written twice is refused. -/
def once? {β : Type} (unwritten : β) : List β → Option β
  | [] => some unwritten
  | [v] => some v
  | _ :: _ :: _ => none

/-- Read settings. -/
def readRon? (t : Text) : Option Settings := do
  let fields ← Ron.readStruct? "ExpansionSettings" Field.read? t
  let unwritten : Settings := {}
  return {
    maxDepth := ← once? unwritten.maxDepth <|
      fields.filterMap fun | .maxDepth cap => some cap | _ => none
    keepEscapes := ← once? unwritten.keepEscapes <|
      fields.filterMap fun | .keepEscapes keep => some keep | _ => none
    separator := ← once? unwritten.separator <|
      fields.filterMap fun | .separator c => some c | _ => none }

/-- Read settings, or fail. -/
def readRon {α : Type} (t : Text) : Except (Failure α) Settings :=
  match readRon? t with
  | some s => .ok s
  | none => .error .ron

end Settings

end TextGrammar
