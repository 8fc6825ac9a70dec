import TextGrammar.Document
import TextGrammar.Markup.Section
import TextGrammar.Markup.Nesting

/-!
# Checking a document

`References.ofRule` walks through a rule without expanding it and collects the symbols that its
tags look up, the symbols that its actions push to, what scanning reports, and the tags that have
more than one clause. It looks into tags, into the alternatives of pushes and into evaluated rules,
however deep; a tag without a clause is never run, and is looked into all the same.

`lint` checks the rules of a document by what they refer to. An error is a rule that does not scan
cleanly, a tag with more than one clause, a reference to a symbol that is neither declared nor
pushed to anywhere, and a symbol all of whose rules refer back to it. A warning is a symbol with a
single rule, and one that no tag refers to and that is not the origin.
-/

namespace TextGrammar

/-! ### References -/

/-- What a stretch of rule text refers to, in order. -/
structure References where
  /-- Symbols of tags. -/
  tags : List Text := []
  /-- Targets of pushes. -/
  pushes : List Text := []
  /-- What scanning reports. -/
  problems : List Diagnostic := []
  /-- Tags with more than one clause. -/
  ambiguous : List Text := []
  deriving DecidableEq, Repr

namespace References

/-- The references of both, those of the first one first. -/
def append (a b : References) : References :=
  { tags := a.tags ++ b.tags
    pushes := a.pushes ++ b.pushes
    problems := a.problems ++ b.problems
    ambiguous := a.ambiguous ++ b.ambiguous }

instance : Append References := ⟨append⟩

/-- The references of all, in order. -/
def concat (rs : List References) : References := rs.foldr append {}

/-- The references of a rule, given those of its sections. -/
def ofText (ofSection : Section → References) (rule : Text) : References :=
  let scanned := scan rule
  { problems := scanned.problems } ++ concat (scanned.sections.map ofSection)

/-- The references of a section; `steps` bounds how many sections are inside each other. -/
def ofSection (separator : Char) : (steps : Nat) → Section → References
  | 0, _ => {}
  | steps + 1, s =>
    let inside := ofSection separator steps
    match s.kind with
    | .plain | .unparsed => {}
    | .tag =>
      match Tag.read s.raw with
      | .clause c =>
        { tags := [c.symbol], problems := c.problems } ++ concat (c.preactions.map inside)
      | .silent => ofText inside s.raw
      | .ambiguous => { ambiguous := [s.raw] }
    | .action =>
      match Action.read s.raw with
      | .push target rules =>
        { pushes := [target] } ++
          concat ((Alternatives.split separator rules).map (ofText inside))
      | .pop _ => {}
      | .evaluate rule => ofText inside rule

/-- The references of a rule. Each section is shorter than the text it is in, unless it is
plain. -/
def ofRule (separator : Char) (rule : Text) : References :=
  ofText (ofSection separator (rule.length + 1)) rule

end References

/-! ### Findings -/

namespace Lint

/-- A finding that makes a document unfit for use. -/
inductive Error where
  | badSyntax (symbol : Text) (problem : Diagnostic)
  | ambiguousTag (symbol tag : Text)
  | missingReference (symbol reference : Text)
  | noExit (symbol : Text)
  deriving DecidableEq, Repr

/-- A finding that may be intended. -/
inductive Warning where
  | singleRule (symbol : Text)
  | unreferenced (symbol : Text)
  deriving DecidableEq, Repr

/-- The wording of an error. -/
def Error.message : Error → String
  | badSyntax symbol problem =>
    s!"Rule '{symbol.asString}' does not scan cleanly: {problem.message}"
  | ambiguousTag symbol tag =>
    s!"Rule '{symbol.asString}' has a tag with multiple main sections: '{tag.asString}'"
  | missingReference symbol reference =>
    s!"Rule '{symbol.asString}' references non-existent symbol '{reference.asString}'"
  | noExit symbol =>
    s!"Symbol '{symbol.asString}' has no non-recursive rule (infinite recursion)"

/-- The wording of a warning. -/
def Warning.message : Warning → String
  | singleRule symbol => s!"Symbol '{symbol.asString}' has only one rule"
  | unreferenced symbol => s!"Symbol '{symbol.asString}' is never referenced"

/-- All findings, in the order of the symbols. -/
structure Report where
  errors : List Error
  warnings : List Warning
  deriving DecidableEq, Repr

/-- Whether nothing was found. -/
def Report.isClean (r : Report) : Bool := r.errors.isEmpty && r.warnings.isEmpty

/-- The references of every rule of every symbol. -/
abbrev Survey := List (Text × List References)

/-- Look at all rules of a document. -/
def survey {α : Type} (d : Document α) (separator : Char) : Survey :=
  d.entries.map fun (name, definition) =>
    (name, definition.rules.map (References.ofRule separator))

/-- The symbols that some tag refers to. -/
def Survey.tags (s : Survey) : List Text := s.flatMap fun e => e.2.flatMap (·.tags)

/-- The symbols that some action pushes to. -/
def Survey.pushes (s : Survey) : List Text := s.flatMap fun e => e.2.flatMap (·.pushes)

/-- The errors of one rule; `known` holds of the names that may be referred to. -/
def ruleErrors (known : Text → Bool) (symbol : Text) (refs : References) : List Error :=
  refs.problems.map (.badSyntax symbol) ++
    (refs.ambiguous.map (.ambiguousTag symbol) ++
      (refs.tags.filter fun tag => !known tag).map (.missingReference symbol))

/-- Whether every rule refers back to the symbol. -/
def hasNoExit (symbol : Text) (rules : List References) : Bool :=
  !rules.isEmpty && rules.all fun refs => refs.tags.contains symbol

/-- The errors of a symbol. -/
def symbolErrors (known : Text → Bool) (symbol : Text) (rules : List References) : List Error :=
  rules.flatMap (ruleErrors known symbol) ++
    if hasNoExit symbol rules then [.noExit symbol] else []

/-- The warnings of a symbol. -/
def symbolWarnings (origin : Text) (referenced : Text → Bool) (symbol : Text)
    (rules : List References) : List Warning :=
  (if rules.length = 1 then [.singleRule symbol] else []) ++
    if symbol ≠ origin ∧ !referenced symbol then [.unreferenced symbol] else []

end Lint

open Lint in
/-- Check a document. The `origin` need not be referred to. -/
def lint {α : Type} (d : Document α) (origin : Text) (separator : Char) : Report :=
  let s := survey d separator
  let tags := s.tags
  let pushes := s.pushes
  { errors := s.flatMap fun (symbol, rules) =>
      symbolErrors (fun name => d.contains name || pushes.contains name) symbol rules
    warnings := s.flatMap fun (symbol, rules) =>
      symbolWarnings origin (fun name => tags.contains name) symbol rules }

end TextGrammar
