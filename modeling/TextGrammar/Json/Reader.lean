import TextGrammar.Json
import TextGrammar.Json.Token

/-!
# Reading JSON

`Json.read?` reads a text that is one value, surrounded by nothing but white space. The tokens
drive a machine that keeps the arrays and objects still open on a stack and knows what may come
next. At most `Json.maxNesting` of them may be open at a time.
-/

namespace TextGrammar.Json

/-- How many arrays and objects may be open at a time. -/
def maxNesting : Nat := 127

/-- An array or object that is still open, its newest part first. -/
inductive Frame where
  | array (items : List Json)
  | object (members : List (Text × Json))
  /-- An object with a name whose value is awaited. -/
  | member (members : List (Text × Json)) (name : Text)
  deriving Repr

/-- What may come next. -/
inductive Phase where
  | value
  /-- A value, or the end of the array. -/
  | firstItem
  | name
  /-- A name, or the end of the object. -/
  | firstName
  | colon
  /-- A comma, or the end of the array or object. -/
  | next
  /-- Nothing: the value is complete. -/
  | done (value : Json)
  deriving Repr

/-- A reading under way: the open arrays and objects, innermost first, and what may come next. -/
structure Reader where
  frames : List Frame := []
  phase : Phase := .value
  deriving Repr

namespace Reader

/-- A value is complete: it belongs to the innermost frame, or it is the whole. -/
def accept (frames : List Frame) (v : Json) : Option Reader :=
  match frames with
  | [] => some ⟨[], .done v⟩
  | .array items :: rest => some ⟨.array (v :: items) :: rest, .next⟩
  | .member members name :: rest => some ⟨.object ((name, v) :: members) :: rest, .next⟩
  | .object _ :: _ => none

/-- Open an array or object. -/
def enter (frames : List Frame) (frame : Frame) (phase : Phase) : Option Reader :=
  if frames.length < maxNesting then some ⟨frame :: frames, phase⟩ else none

/-- Read a token where a value may stand. -/
def value? (frames : List Frame) : Token → Option Reader
  | .null => accept frames .null
  | .bool b => accept frames (.bool b)
  | .number n => accept frames (.number n)
  | .string t => accept frames (.string t)
  | .openArray => enter frames (.array []) .firstItem
  | .openObject => enter frames (.object []) .firstName
  | .closeArray | .closeObject | .comma | .colon => none

/-- Read a token where a name may stand. -/
def name? : List Frame → Token → Option Reader
  | .object members :: rest, .string name => some ⟨.member members name :: rest, .colon⟩
  | _, _ => none

/-- Close the innermost array or object, if the token does that. -/
def close? : List Frame → Token → Option Reader
  | .array items :: rest, .closeArray => accept rest (.array items.reverse)
  | .object members :: rest, .closeObject => accept rest (.object members.reverse)
  | _, _ => none

/-- Read one token. -/
def step? (r : Reader) (token : Token) : Option Reader :=
  match r.phase with
  | .value => value? r.frames token
  | .firstItem => if token = .closeArray then close? r.frames token else value? r.frames token
  | .name => name? r.frames token
  | .firstName => if token = .closeObject then close? r.frames token else name? r.frames token
  | .colon => if token = .colon then some { r with phase := .value } else none
  | .next =>
    match r.frames, token with
    | .array _ :: _, .comma => some { r with phase := .value }
    | .object _ :: _, .comma => some { r with phase := .name }
    | frames, token => close? frames token
  | .done _ => none

/-- The value read, if it is complete. -/
def result? (r : Reader) : Option Json :=
  match r.phase with
  | .done v => some v
  | _ => none

end Reader

/-- Read a text that is one value. -/
def read? (t : Text) : Option Json := do
  let tokens ← lex? t
  let r ← tokens.foldlM Reader.step? {}
  r.result?

end TextGrammar.Json
