import TextGrammar.Decimal.Layout
import TextGrammar.Named
import TextGrammar.Scalar

/-!
# Documents

A symbol is declared by one rule, by a list of rules, or by a list of rules with as many weights.
`Definition.fault?` is the first reason for which weights cannot be used.

A document declares symbols: a table of definitions. Documents are merged with the last
declaration of a name winning and the first one fixing its place. `Document.validate` refuses the
first definition whose weights cannot be used.

`Failure` lists why a grammar cannot be loaded. A file may not be there or not be text, a document
may not have the form of its format, and the weights of a definition may be unusable.
`Failure.message` has the wording; of a document in the wrong form it says no more than the
format.
-/

namespace TextGrammar

/-! ### Definitions -/

/-- The rules declared for a symbol. -/
inductive Definition (α : Type) where
  | single (rule : Text)
  | many (rules : List Text)
  | weighted (rules : List Text) (weights : List α)
  deriving Repr

/-- What is wrong with a list of weights. -/
inductive WeightFault (α : Type) where
  /-- There are not as many weights as rules. -/
  | count (rules weights : Nat)
  /-- A weight is negative or not finite. -/
  | weight (weight : α)
  /-- The sum is not finite. -/
  | total (total : α)
  /-- The sum is zero. -/
  | zero
  deriving Repr

namespace Definition

variable {α : Type}

/-- The rules, a single one as a list of one. -/
def rules : Definition α → List Text
  | single rule => [rule]
  | many rules | weighted rules _ => rules

/-- The weights, if there are any. -/
def weights? : Definition α → Option (List α)
  | weighted _ weights => some weights
  | single _ | many _ => none

variable [Scalar α]

/-- Whether a weight can be used. -/
def isWeight (w : α) : Bool := Scalar.isFinite w && !Scalar.lt w Scalar.zero

/-- The first fault of a definition. -/
def fault? : Definition α → Option (WeightFault α)
  | single _ | many _ => none
  | weighted rules weights =>
    if rules.length ≠ weights.length then some (.count rules.length weights.length)
    else
      match weights.find? fun w => !isWeight w with
      | some w => some (.weight w)
      | none =>
        let total := Scalar.sum weights
        if !Scalar.isFinite total then some (.total total)
        else if !rules.isEmpty && Scalar.le total Scalar.zero then some .zero
        else none

end Definition

/-! ### Failures -/

/-- Why a file cannot be read as text. -/
inductive FileFault where
  | missing
  | directory
  /-- A file stands where the path needs a directory. -/
  | notDirectory
  /-- The path or one of its names is longer than any file's. -/
  | longName
  | notText
  deriving DecidableEq, Repr

/-- The wording of a file fault. -/
def FileFault.message : FileFault → String
  | missing => "No such file or directory (os error 2)"
  | directory => "Is a directory (os error 21)"
  | notDirectory => "Not a directory (os error 20)"
  | longName => "File name too long (os error 36)"
  | notText => "stream did not contain valid UTF-8"

/-- Why a grammar cannot be loaded. -/
inductive Failure (α : Type) where
  | weights (symbol : Text) (fault : WeightFault α)
  | file (fault : FileFault)
  /-- The text is not a JSON document of definitions. -/
  | json
  /-- The text is not a RON document of definitions, or not one of settings. -/
  | ron
  deriving Repr

/-- The wording of a fault of weights. -/
def WeightFault.message : WeightFault Float → String
  | count rules weights => s!"{rules} rules but {weights} weights"
  | weight w => s!"weight {Layout.message.writeFloat w} is not a finite non-negative number"
  | total sum => s!"weights sum to {Layout.message.writeFloat sum}"
  | zero => "weights sum to zero"

/-- The wording of a failure. -/
def Failure.message : Failure Float → String
  | weights symbol fault => s!"invalid weights for symbol '{symbol.asString}': {fault.message}"
  | file fault => s!"IO error: {fault.message}"
  | json => "JSON error: "
  | ron => "RON deserialization error: "

/-! ### Tables of definitions -/

/-- A table of definitions. -/
abbrev Document (α : Type) := Named (Definition α)

namespace Document

variable {α : Type} [Scalar α]

/-- Refuse the first definition with a fault. -/
def validate (d : Document α) : Except (Failure α) Unit :=
  d.entries.forM fun (name, definition) =>
    match definition.fault? with
    | some fault => .error (.weights name fault)
    | none => .ok ()

/-- The document, if it is valid. -/
def validated (d : Document α) : Except (Failure α) (Document α) := d.validate.map fun _ => d

end Document

end TextGrammar
