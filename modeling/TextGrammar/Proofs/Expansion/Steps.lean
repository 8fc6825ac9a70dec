import TextGrammar.Proofs.Expansion.Simulation

/-!
# Enough steps

An expansion is given as many steps as the text of a node could need, and this bound never shows:
steps beyond the span of a node change nothing (`expandWithin_eq`). So a whole expansion passes
everything inside a node to itself, and only the sections of selected rules go to an expansion
with one level less (`expand_eq`).
-/

namespace TextGrammar.Expansion

variable {α : Type} [Scalar α] {c : Context α} {selected : Expander α} {node : Node}

theorem expandWith_congr {nested nested' selected' : Expander α}
    (hin : ∀ x, Inside c node x → ∀ s, nested x s = nested' x s)
    (hsel : ∀ x, Selectable c node x → ∀ s, selected x s = selected' x s) (s : State α) :
    expandWith c nested nested selected node s = expandWith c nested' nested' selected' node s := by
  refine ((simulation_eq c).expandWith ?_ ?_ rfl).eq
  · rintro x hx s _ rfl
    rw [hin x hx s]
    exact ⟨rfl, rfl, rfl⟩
  · rintro x hx s _ rfl
    rw [hsel x hx s]
    exact ⟨rfl, rfl, rfl⟩

theorem span_pos (n : Node) : 0 < span n := by
  unfold span
  cases n.kind <;> simp

theorem span_le_stepsWithin (n : Node) : span n ≤ stepsWithin n.raw := by
  unfold span stepsWithin
  cases n.kind <;> simp only <;> omega

/-- Steps beyond the span of a node change nothing. -/
theorem expandWithin_eq {steps steps' : Nat} (h : span node ≤ steps) (h' : span node ≤ steps')
    (s : State α) :
    expandWithin c selected steps node s = expandWithin c selected steps' node s := by
  induction steps generalizing steps' node s with
  | zero => exact absurd h (Nat.not_le.2 (span_pos node))
  | succ steps ih =>
    cases steps' with
    | zero => exact absurd h' (Nat.not_le.2 (span_pos node))
    | succ steps' =>
      -- what is inside the node has a smaller span, and one step less is left for it
      refine expandWith_congr (fun x hx s => ?_) (fun _ _ _ => rfl) s
      have hlt := hx.span_lt
      exact ih (by omega) (by omega) s

/-- What expands the sections of selected rules in an expansion with so many levels. -/
def levelBelow (c : Context α) : Nat → Expander α
  | 0 => exhaust
  | levels + 1 => expand c levels

theorem expand_eq_expandWithin (levels : Nat) (s : State α) :
    expand c levels node s =
      expandWithin c (levelBelow c levels) (stepsWithin node.raw) node s := by
  cases levels <;> rfl

theorem expand_eq (levels : Nat) (node : Node) (s : State α) :
    expand c levels node s =
      expandWith c (expand c levels) (expand c levels) (levelBelow c levels) node s := by
  rw [expand_eq_expandWithin]
  refine expandWith_congr (fun x hx s => ?_) (fun _ _ _ => rfl) s
  have hlt := hx.span_lt
  have hle := span_le_stepsWithin node
  rw [expand_eq_expandWithin]
  exact expandWithin_eq (by unfold stepsWithin at hle; omega) (span_le_stepsWithin x) s

end TextGrammar.Expansion
