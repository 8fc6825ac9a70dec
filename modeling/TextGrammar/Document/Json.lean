import TextGrammar.Decimal.Layout
import TextGrammar.Document
import TextGrammar.Json.Reader
import TextGrammar.Json

/-!
# Documents in JSON

A document is an object from names to definitions. A definition is a string, an array of strings,
or an object with `rules` and `weights`, each of which it must hold once; other members are
ignored. A weight is written as its shortest decimal. Writing a document and reading the text gives
the document back, as far as the weights survive that (see `Json.double?`).
-/

namespace TextGrammar

/-- The only value under a name. -/
def Json.only? (members : List (Text × Json)) (name : String) : Option Json :=
  match members.filter fun m => m.1 == name.toList with
  | [m] => some m.2
  | _ => none

namespace Definition

/-- The definition that a JSON value stands for. -/
def ofJson? : Json → Option (Definition Float)
  | .string rule => some (single rule)
  | .array items => (items.mapM Json.text?).map many
  | .object members => do
    let rules ← (← Json.only? members "rules").texts?
    let weights ← (← Json.only? members "weights").numbers?
    return weighted rules (← weights.mapM Json.double?)
  | _ => none

/-- A weight as a number of the format; one that is not finite has no such form. -/
def weightToJson (w : Float) : Json :=
  if w.isFinite then .number (Layout.json.ofFloat w) else .null

/-- A definition as a JSON value. -/
def toJson : Definition Float → Json
  | single rule => .string rule
  | many rules => .array (rules.map .string)
  | weighted rules weights =>
    .object
      [("rules".toList, .array (rules.map .string)),
        ("weights".toList, .array (weights.map weightToJson))]

end Definition

namespace Document

/-- The document that a JSON value stands for. -/
def ofJson? : Json → Option (Document Float)
  | .object members => do
    let entries ← members.mapM fun (name, v) => (Definition.ofJson? v).map (name, ·)
    return Named.ofList entries
  | _ => none

/-- A document as a JSON value. -/
def toJson (d : Document Float) : Json :=
  .object (d.entries.map fun (name, definition) => (name, definition.toJson))

/-- Read and validate a document. -/
def readJson (t : Text) : Except (Failure Float) (Document Float) :=
  match (Json.read? t).bind ofJson? with
  | some d => d.validated
  | none => .error .json

/-- Write a document. -/
def writeJson (d : Document Float) : Text := d.toJson.write

end Document

end TextGrammar
