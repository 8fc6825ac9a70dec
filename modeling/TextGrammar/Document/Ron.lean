import TextGrammar.Document
import TextGrammar.Ron.Reader

/-!
# Documents in RON

A document is a map from strings to definitions. A definition is a string, a list or tuple of
strings, or a map or structure with `rules` and `weights`. Among the keys of a map the numbers
zero and one may stand for these two, and any other small or very large number is ignored like an
unknown name.
-/

namespace TextGrammar

namespace Definition

/-- The parts of a weighted definition. -/
inductive Part where
  | rules
  | weights
  | other
  deriving DecidableEq, Repr

/-- The part that a key names. Numbers of sixteen and of thirty-two bits name none. -/
def Part.ofRon? : Ron → Option Part
  | .string name =>
    some (if name = "rules".toList then rules else if name = "weights".toList then weights
      else other)
  | .unsigned n =>
    if n = 0 then some rules
    else if n = 1 then some weights
    else if n < UInt8.size ∨ UInt32.size ≤ n then some other
    else none
  | _ => none

/-- The only value of a part. -/
def Part.only? (p : Part) (parts : List (Part × Ron)) : Option Ron :=
  match parts.filter (·.1 == p) with
  | [e] => some e.2
  | _ => none

/-- The definition that a RON value stands for. -/
def ofRon? : Ron → Option (Definition Float)
  | .string rule => some (single rule)
  | .list items => (items.mapM Ron.text?).map many
  | .map entries => do
    let parts ← entries.mapM fun (key, v) => (Part.ofRon? key).map (·, v)
    let rules ← (← Part.rules.only? parts).texts?
    let weights ← (← Part.weights.only? parts).numbers?
    return weighted rules weights
  | _ => none

end Definition

namespace Document

/-- Read and validate a document. -/
def readRon (t : Text) : Except (Failure Float) (Document Float) :=
  let entries? := (Ron.readMap? t).bind fun entries =>
    entries.mapM fun (name, v) => (Definition.ofRon? v).map (name, ·)
  match entries? with
  | some entries => validated (.ofList entries)
  | none => .error .ron

end Document

end TextGrammar
