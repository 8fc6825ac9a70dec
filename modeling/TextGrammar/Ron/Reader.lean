import TextGrammar.Ron

/-!
# Reading RON

`Ron.readMap?` reads a text that is a map with strings as keys, `Ron.readStruct?` one that is a
structure with a given name or none. Before the value may stand attributes that turn extensions
on; of these only one matters to a reader, that of options written without `Some`. Where an option
is expected, `Some` need not end there: `optionalNatural?` then takes `Some5` for five, which
elsewhere is a name.

Values nest no deeper than `Ron.maxNesting` allows, an array or a map counting once and each of
its parts once more.
-/

namespace TextGrammar.Ron

/-- How many levels of nesting are read. -/
def maxNesting : Nat := 128

/-- A text that goes on with one given character, and what follows. -/
def expect? (c : Char) : Text → Option Text
  | d :: rest => if d = c then .some rest else .none
  | [] => .none

/-- A comma with the blanks around it, if there is one. -/
def comma? (t : Text) : Option (Bool × Text) := do
  let t ← skip? t
  match t with
  | ',' :: rest => return (true, ← skip? rest)
  | t => return (false, t)

/-- Whether a parenthesis opens a tuple, from the text behind it: a structure goes on with an
identifier and a colon. -/
def opensTuple? (t : Text) : Option Bool :=
  match identifier? t with
  | .none => .some true
  | .some (_, rest) => do
    let rest ← skip? rest
    match rest with
    | c :: _ => return c != ':'
    | [] => failure

/-- The numbers that have no digits, with or without a sign. -/
def boundless? (t : Text) : Option (Ron × Text) :=
  let (sign, rest) := Numeral.takeSign t
  ((takeWord? "inf" rest).map (.float (if sign = .some '-' then -1 / 0 else 1 / 0), ·)).or <|
    (takeWord? "NaN" rest).map (.float (0 / 0), ·)

/-- The values that a word stands for. -/
def word? (t : Text) : Option (Ron × Text) :=
  ((takeWord? "true" t).map (.bool true, ·)).or <|
    ((takeWord? "false" t).map (.bool false, ·)).or <|
      ((takeWord? "None" t).map (.none, ·)).or <|
        ((take? "()" t).map (.unit, ·)).or <|
          boundless? t

/-- A number, a string or a character. -/
def literal? (t : Text) : Option (Ron × Text) :=
  match t with
  | '"' :: _ | 'r' :: _ => (quoted? t).map fun (s, rest) => (.string s, rest)
  | '\'' :: _ => (character? t).map fun (c, rest) => (.char c, rest)
  | '.' :: _ => fraction? t
  | c :: _ => if c.isDigit || c == '+' || c == '-' then numberLiteral? t else .none
  | [] => .none

mutual

/-- A value. `limit` counts the levels of nesting still allowed, and `fuel` bounds the steps. -/
def value? (implicitSome : Bool) : (fuel limit : Nat) → Text → Option (Ron × Text)
  | 0, _, _ => .none
  | fuel + 1, limit, t =>
    match word? t with
    | .some read => .some read
    | .none =>
      if (takeWord? "Some" t).isSome then option? implicitSome fuel limit t
      else
        match identifier? t with
        | .some (_, rest) => do group? implicitSome fuel limit (← skip? rest)
        | .none =>
          match t with
          | '(' :: _ => group? implicitSome fuel limit t
          | '[' :: rest => do
            let (items, rest) ← items? implicitSome fuel limit ']' true rest
            return (.list items, rest)
          | '\x7b' :: rest => do
            let (entries, rest) ← entries? implicitSome fuel limit '\x7d' true rest
            return (.map entries, rest)
          | t => literal? t

/-- An option that is there. With `implicitSome` the value may stand without parentheses. -/
def option? (implicitSome : Bool) : (fuel limit : Nat) → Text → Option (Ron × Text)
  | 0, _, _ | _, 0, _ => .none
  | fuel + 1, limit + 1, t => do
    let t ← skip? (t.drop 4)
    match t with
    | '(' :: rest =>
      let (v, rest) ← value? implicitSome fuel limit (← skip? rest)
      let (_, rest) ← comma? rest
      return (.some v, ← expect? ')' rest)
    | t =>
      if !implicitSome then failure
      let (v, rest) ← value? implicitSome fuel limit t
      return (.some v, rest)

/-- What may follow a name: a tuple, a structure or nothing. -/
def group? (implicitSome : Bool) : (fuel limit : Nat) → Text → Option (Ron × Text)
  | 0, _, _ => .none
  | fuel + 1, limit, '(' :: rest => do
    if ← opensTuple? (← skip? rest) then
      let (items, rest) ← items? implicitSome fuel limit ')' true rest
      return (.list items, rest)
    else
      let (entries, rest) ← entries? implicitSome fuel limit ')' true rest
      return (.map entries, rest)
  | _ + 1, _, t => .some (.unit, t)

/-- The items before a closing character; `comma` says that another one may stand here. -/
def items? (implicitSome : Bool) :
    (fuel limit : Nat) → (close : Char) → (comma : Bool) → Text → Option (List Ron × Text)
  | 0, _, _, _, _ | _, 0, _, _, _ => .none
  | fuel + 1, limit + 1, close, comma, t => do
    let t ← skip? t
    match t, limit with
    | [], _ => failure
    | c :: rest, 0 => if c = close then return ([], rest) else failure
    | c :: rest, limit' + 1 =>
      if c = close then return ([], rest)
      if !comma then failure
      let (item, rest) ← value? implicitSome fuel limit' (c :: rest)
      let (comma, rest) ← comma? rest
      let (items, rest) ← items? implicitSome fuel (limit' + 2) close comma rest
      return (item :: items, rest)

/-- The entries before a closing character. Behind a parenthesis the keys are identifiers. -/
def entries? (implicitSome : Bool) :
    (fuel limit : Nat) → (close : Char) → (comma : Bool) → Text → Option (List (Ron × Ron) × Text)
  | 0, _, _, _, _ | _, 0, _, _, _ => .none
  | fuel + 1, limit + 1, close, comma, t => do
    let t ← skip? t
    match t, limit with
    | [], _ => failure
    | c :: rest, 0 => if c = close then return ([], rest) else failure
    | c :: rest, limit' + 1 =>
      if c = close then return ([], rest)
      if !comma then failure
      let (key, rest) ←
        if close = ')' then (identifier? (c :: rest)).map fun (name, rest) => (.string name, rest)
        else value? implicitSome fuel limit' (c :: rest)
      let rest ← expect? ':' (← skip? rest)
      let (value, rest) ← value? implicitSome fuel limit' (← skip? rest)
      let (comma, rest) ← comma? rest
      let (entries, rest) ← entries? implicitSome fuel (limit' + 2) close comma rest
      return ((key, value) :: entries, rest)

end

/-- The bound on the steps that a text needs. -/
def fuelFor (t : Text) : Nat := 3 * t.length + 3

/-! ### Options of a number -/

/-- An option of an integer of 64 bits without a sign. With `implicitSome` the integer may also
stand alone, or right behind `Some`. -/
def optionalNatural? (implicitSome : Bool) (t : Text) : Option (Option Nat × Text) :=
  let bare (t : Text) :=
    if implicitSome then (unsigned? t).map fun (n, rest) => (.some n, rest) else .none
  match take? "None" t, take? "Some" t with
  | .some rest, _ => .some (.none, rest)
  | .none, .none => bare t
  | .none, .some rest => do
    match ← skip? rest with
    | '(' :: rest =>
      let (n, rest) ← unsigned? (← skip? rest)
      let (_, rest) ← comma? rest
      return (.some n, ← expect? ')' rest)
    | rest => bare rest

/-! ### Whole texts -/

/-- The extensions. -/
def extensions : List Text :=
  ["unwrap_newtypes".toList, "implicit_some".toList, "unwrap_variant_newtypes".toList]

/-- The names in an attribute; the text goes on behind them. -/
def extensionNames? : (fuel : Nat) → Text → Option (List Text × Text)
  | 0, _ => .none
  | fuel + 1, t => do
    let (name, rest) ← identifier? t
    if !extensions.contains name then failure
    let (comma, rest) ← comma? rest
    let more := (rest.head?.map isIdentRest).getD false
    if more && !comma then failure
    if more then
      let (names, rest) ← extensionNames? fuel rest
      return (name :: names, rest)
    return ([name], rest)

/-- Take a sequence of marks off the front, blanks allowed after each. -/
def marks? : List String → Text → Option Text
  | [], t => .some t
  | mark :: marks, t => do marks? marks (← skip? (← take? mark t))

/-- Read the attributes; the result says whether options may be written without `Some`. -/
def attributes? : (fuel : Nat) → Text → Option (Bool × Text)
  | 0, _ => .none
  | fuel + 1, t => do
    let t ← skip? t
    match t with
    | '#' :: _ =>
      let t ← marks? ["#", "!", "[", "enable", "("] t
      let (names, t) ← extensionNames? t.length t
      let t ← marks? [")", "]"] (← skip? t)
      let (implicitSome, t) ← attributes? fuel t
      return (implicitSome || names.contains "implicit_some".toList, t)
    | t => return (false, t)

/-- Nothing but blanks is left. -/
def atEnd? (t : Text) : Option Unit := do if (← skip? t).isEmpty then return () else failure

/-- The parts of the outermost value up to its closing character. Each has a name and, behind a
colon, what `read` makes of the text for that name. -/
def parts? {β : Type} (name? : Text → Option (Text × Text))
    (read : (name : Text) → Text → Option (β × Text)) (close : Char) :
    (fuel : Nat) → (comma : Bool) → Text → Option (List β × Text)
  | 0, _, _ => .none
  | fuel + 1, comma, t => do
    match ← skip? t with
    | [] => failure
    | c :: rest =>
      if c = close then return ([], rest)
      if !comma then failure
      let (name, rest) ← name? (c :: rest)
      let rest ← expect? ':' (← skip? rest)
      let (part, rest) ← read name (← skip? rest)
      let (comma, rest) ← comma? rest
      let (parts, rest) ← parts? name? read close fuel comma rest
      return (part :: parts, rest)

/-- A value that is a part of the outermost one; `fuel` bounds the steps. -/
def partValue? (implicitSome : Bool) (fuel : Nat) (t : Text) : Option (Ron × Text) :=
  value? implicitSome fuel (maxNesting - 2) t

/-- Read a text that is a map whose keys are strings. -/
def readMap? (t : Text) : Option (List (Text × Ron)) := do
  let (implicitSome, t) ← attributes? (t.length + 1) t
  let t ← expect? '\x7b' t
  let fuel := fuelFor t
  let read (name t : Text) :=
    (partValue? implicitSome fuel t).map fun (v, rest) => ((name, v), rest)
  let (entries, rest) ← parts? quoted? read '\x7d' fuel true t
  atEnd? rest
  return entries

/-- Read a text that is a structure with the given name, or with none. What `read` makes of the text
for a field may depend on whether options may be written without `Some`; it also gets a bound for
the steps. -/
def readStruct? {β : Type} (name : String)
    (read : (implicitSome : Bool) → (fuel : Nat) → (field : Text) → Text → Option (β × Text))
    (t : Text) : Option (List β) := do
  let (implicitSome, t) ← attributes? (t.length + 1) t
  let t ←
    match identifier? t with
    | .some (found, rest) => if found = name.toList then skip? rest else failure
    | .none => .some t
  let t ← expect? '(' t
  let fuel := fuelFor t
  let (fields, rest) ← parts? identifier? (read implicitSome fuel) ')' fuel true t
  atEnd? rest
  return fields

end TextGrammar.Ron
