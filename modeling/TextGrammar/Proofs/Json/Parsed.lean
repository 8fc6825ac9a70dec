import TextGrammar.Json.Reader
import TextGrammar.Proofs.Json.Lexed

/-!
# The value of written tokens

The tokens of a value are put together to the value again, wherever a value may stand, as long as no
more arrays and objects are open at a time than the reader admits (`Reader.read?_tokens`). With the
cut into tokens this says that a written value is read back (`Json.read?_write`).
-/

namespace TextGrammar.Json

mutual

/-- How many arrays and objects stand inside one another. -/
def height : Json → Nat
  | null | bool _ | number _ | string _ => 0
  | array items => heightOfItems items + 1
  | object members => heightOfMembers members + 1

/-- The greatest height of an item. -/
def heightOfItems : List Json → Nat
  | [] => 0
  | item :: items => max (height item) (heightOfItems items)

/-- The height of a member's value. -/
def heightOfMember : Text × Json → Nat
  | (_, value) => height value

/-- The greatest height of a member. -/
def heightOfMembers : List (Text × Json) → Nat
  | [] => 0
  | member :: members => max (heightOfMember member) (heightOfMembers members)

end

theorem height_array_le {items : List Json} {k : Nat} (h : ∀ item ∈ items, item.height ≤ k) :
    (array items).height ≤ k + 1 := by
  refine Nat.succ_le_succ ?_
  induction items with
  | nil => exact Nat.zero_le k
  | cons item items ih =>
    rw [List.forall_mem_cons] at h
    exact Nat.max_le.2 ⟨h.1, ih h.2⟩

theorem height_object_le {members : List (Text × Json)} {k : Nat}
    (h : ∀ member ∈ members, member.2.height ≤ k) : (object members).height ≤ k + 1 := by
  refine Nat.succ_le_succ ?_
  induction members with
  | nil => exact Nat.zero_le k
  | cons member members ih =>
    obtain ⟨name, value⟩ := member
    rw [List.forall_mem_cons] at h
    exact Nat.max_le.2 ⟨h.1, ih h.2⟩

namespace Reader

/-- Read tokens one after the other. -/
def read? (r : Reader) (ts : List Token) : Option Reader := ts.foldlM step? r

theorem read?_cons (r : Reader) (token : Token) (ts : List Token) :
    r.read? (token :: ts) = (r.step? token).bind (·.read? ts) := rfl

theorem read?_append (r : Reader) (ts us : List Token) :
    r.read? (ts ++ us) = (r.read? ts).bind (·.read? us) := List.foldlM_append

theorem read?_singleton (r : Reader) (token : Token) : r.read? [token] = r.step? token := by
  rw [read?_cons]
  cases r.step? token <;> rfl

/-- No value begins with the end of an array. -/
theorem read?_firstItem (frames : List Frame) (v : Json) :
    read? ⟨frames, .firstItem⟩ v.tokens = read? ⟨frames, .value⟩ v.tokens := by
  cases v with
  | null | bool | number | string => rfl
  | array items => cases items <;> rfl
  | object members => cases members <;> rfl

theorem read?_firstName (frames : List Frame) (member : Text × Json) :
    read? ⟨frames, .firstName⟩ (tokensOfMember member) =
      read? ⟨frames, .name⟩ (tokensOfMember member) := by
  obtain ⟨name, value⟩ := member
  rfl

variable {frames : List Frame}

theorem step?_openArray (h : frames.length < maxNesting) :
    step? ⟨frames, .value⟩ .openArray = some ⟨.array [] :: frames, .firstItem⟩ := if_pos h

theorem step?_openObject (h : frames.length < maxNesting) :
    step? ⟨frames, .value⟩ .openObject = some ⟨.object [] :: frames, .firstName⟩ := if_pos h

mutual

/-- Where a value may stand, the tokens of a value are accepted as this value. -/
theorem read?_tokens (v : Json) (frames : List Frame)
    (h : frames.length + v.height ≤ maxNesting) :
    read? ⟨frames, .value⟩ v.tokens = accept frames v :=
  match v with
  | .null | .bool _ | .number _ | .string _ => read?_singleton _ _
  | .array [] => by
    have hroom : frames.length < maxNesting := by simp only [height] at h; omega
    rw [Json.tokens, read?_cons, step?_openArray hroom]
    exact read?_singleton _ _
  | .array (item :: items) => by
    simp only [height, heightOfItems] at h
    have hroom : frames.length < maxNesting := by omega
    have hitem := read?_tokens item (.array [] :: frames) (by rw [List.length_cons]; omega)
    have hitems := read?_tokensOfItems items [item] frames (by omega)
    have hclose : step? ⟨.array (items.reverse ++ [item]) :: frames, .next⟩ .closeArray =
        accept frames (.array (items.reverse ++ [item]).reverse) := rfl
    rw [Json.tokens, List.append_assoc, List.cons_append, read?_cons, step?_openArray hroom,
      Option.bind_some, read?_append, read?_firstItem, hitem, accept, Option.bind_some,
      read?_append, hitems, Option.bind_some, read?_singleton, hclose]
    simp
  | .object [] => by
    have hroom : frames.length < maxNesting := by simp only [height] at h; omega
    rw [Json.tokens, read?_cons, step?_openObject hroom]
    exact read?_singleton _ _
  | .object (member :: members) => by
    simp only [height, heightOfMembers] at h
    have hroom : frames.length < maxNesting := by omega
    have hmember := read?_tokensOfMember member [] frames (by omega)
    have hmembers := read?_tokensOfMembers members [member] frames (by omega)
    have hclose : step? ⟨.object (members.reverse ++ [member]) :: frames, .next⟩ .closeObject =
        accept frames (.object (members.reverse ++ [member]).reverse) := rfl
    rw [Json.tokens, List.append_assoc, List.cons_append, read?_cons, step?_openObject hroom,
      Option.bind_some, read?_append, read?_firstName, hmember, Option.bind_some,
      read?_append, hmembers, Option.bind_some, read?_singleton, hclose]
    simp

theorem read?_tokensOfItems (items done : List Json) (frames : List Frame)
    (h : frames.length + 1 + heightOfItems items ≤ maxNesting) :
    read? ⟨.array done :: frames, .next⟩ (tokensOfItems items) =
      some ⟨.array (items.reverse ++ done) :: frames, .next⟩ :=
  match items with
  | [] => rfl
  | item :: items => by
    simp only [heightOfItems] at h
    have hcomma : step? ⟨.array done :: frames, .next⟩ .comma =
        some ⟨.array done :: frames, .value⟩ := rfl
    have hitem := read?_tokens item (.array done :: frames) (by rw [List.length_cons]; omega)
    have hitems := read?_tokensOfItems items (item :: done) frames (by omega)
    rw [tokensOfItems, List.cons_append, read?_cons, hcomma, Option.bind_some, read?_append, hitem,
      accept, Option.bind_some, hitems]
    simp

theorem read?_tokensOfMember (member : Text × Json) (done : List (Text × Json))
    (frames : List Frame) (h : frames.length + 1 + heightOfMember member ≤ maxNesting) :
    read? ⟨.object done :: frames, .name⟩ (tokensOfMember member) =
      some ⟨.object (member :: done) :: frames, .next⟩ :=
  match member with
  | (name, value) => by
    have hname : step? ⟨.object done :: frames, .name⟩ (.string name) =
        some ⟨.member done name :: frames, .colon⟩ := rfl
    have hcolon : step? ⟨.member done name :: frames, .colon⟩ .colon =
        some ⟨.member done name :: frames, .value⟩ := rfl
    have hvalue := read?_tokens value (.member done name :: frames)
      (by rw [List.length_cons]; exact h)
    rw [tokensOfMember, read?_cons, hname, Option.bind_some, read?_cons, hcolon, Option.bind_some,
      hvalue, accept]

theorem read?_tokensOfMembers (members done : List (Text × Json)) (frames : List Frame)
    (h : frames.length + 1 + heightOfMembers members ≤ maxNesting) :
    read? ⟨.object done :: frames, .next⟩ (tokensOfMembers members) =
      some ⟨.object (members.reverse ++ done) :: frames, .next⟩ :=
  match members with
  | [] => rfl
  | member :: members => by
    simp only [heightOfMembers] at h
    have hcomma : step? ⟨.object done :: frames, .next⟩ .comma =
        some ⟨.object done :: frames, .name⟩ := rfl
    have hmember := read?_tokensOfMember member done frames (by omega)
    have hmembers := read?_tokensOfMembers members (member :: done) frames (by omega)
    rw [tokensOfMembers, List.cons_append, read?_cons, hcomma, Option.bind_some, read?_append,
      hmember, Option.bind_some, hmembers]
    simp

end

end Reader

/-- **What is written of a value is read as this value**, if its numbers are and if it is not
nested deeper than the reader admits. -/
theorem read?_write {v : Json} (hlegible : Legible v.tokens) (hheight : v.height ≤ maxNesting) :
    read? v.write = some v := by
  have hfold : v.tokens.foldlM Reader.step? {} = some ⟨[], .done v⟩ :=
    Reader.read?_tokens v [] (by rw [List.length_nil]; omega)
  simp [read?, lex?_write hlegible, hfold, Reader.result?]

end TextGrammar.Json
