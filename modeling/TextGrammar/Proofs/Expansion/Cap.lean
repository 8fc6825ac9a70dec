import TextGrammar.Proofs.Expansion.Origin
import TextGrammar.Proofs.Expansion.Steps

/-!
# Expanding under a cap

Under a cap on the depth nothing can be passed on forever. A node that is passed on lies deeper,
and below the cap no rule is selected any more, so from there on it can only be part of the text
it is passed on from. Above the cap it is the depth that decreases what is left, below it the text
(`wellFounded_passesOn`).

By this order an expansion with more levels than the cap never runs out of them
(`halt_expand_ne_exhausted`), and more of them change nothing (`expand_eq_of_cap_lt`).
-/

namespace TextGrammar.Expansion

variable {α : Type} {c : Context α} {cap depth : Nat} {node x : Node}

/-- `x` is a node that `node` passes on. -/
def PassesOn (c : Context α) (x node : Node) : Prop := Inside c node x ∨ Selectable c node x

theorem depth_le_of_uncapped (h : c.settings.maxDepth.filter (· < depth) = none)
    (hcap : c.settings.maxDepth = some cap) : depth ≤ cap := by
  rw [hcap, Option.filter_some] at h
  split at h
  · cases h
  · simp_all

theorem Selectable.depth_le (h : Selectable c node x) (hcap : c.settings.maxDepth = some cap) :
    node.depth ≤ cap :=
  depth_le_of_uncapped h.uncapped hcap

theorem wellFounded_passesOn (hcap : c.settings.maxDepth = some cap) :
    WellFounded (PassesOn c) := by
  have hlex : WellFounded (InvImage (Prod.Lex (· < ·) (· < ·)) fun n : Node =>
      (cap + 1 - n.depth, span n)) :=
    InvImage.wf _ (Prod.lex Nat.lt_wfRel Nat.lt_wfRel).wf
  refine Subrelation.wf (fun {x node} h => ?_) hlex
  rcases h with h | h
  · -- one down, possibly from below the cap already, but in a smaller text
    have hdepth := h.depth_eq
    exact Prod.Lex.right' _ (by omega) h.span_lt
  · -- any text, but one down from the cap or above
    have hdepth := h.depth_eq
    have hle := h.depth_le hcap
    exact Prod.Lex.left _ _ (by omega)

/-! ### Levels -/

variable [Scalar α]

theorem halt_expand_ne_exhausted (hcap : c.settings.maxDepth = some cap) {levels : Nat}
    (hlevels : cap < node.depth + levels) (s : State α) :
    (expand c levels node s).halt ≠ some .exhausted := by
  induction node using (wellFounded_passesOn hcap).induction generalizing levels s with
  | _ node ih =>
    intro h
    rw [expand_eq] at h
    cases origin_expandWith.halt _ h with
    | ambiguous h => cases h
    | inside x hx t ht =>
      have hdepth := hx.depth_eq
      exact ih x (.inl hx) (by omega) t ht
    | selected x hx t ht =>
      have hdepth := hx.depth_eq
      have hle := hx.depth_le hcap
      -- a rule is selected above the cap only, where a level is left
      obtain ⟨levels, rfl⟩ : ∃ n, levels = n + 1 := ⟨levels - 1, by omega⟩
      exact ih x (.inr hx) (by omega) t ht

/-- Levels beyond the cap change nothing. -/
theorem expand_eq_of_cap_lt (hcap : c.settings.maxDepth = some cap) {levels levels' : Nat}
    (h : cap < node.depth + levels) (h' : cap < node.depth + levels') (s : State α) :
    expand c levels node s = expand c levels' node s := by
  induction node using (wellFounded_passesOn hcap).induction generalizing levels levels' s with
  | _ node ih =>
    rw [expand_eq levels, expand_eq levels']
    refine expandWith_congr (fun x hx s => ?_) (fun x hx s => ?_) s
    · have hdepth := hx.depth_eq
      exact ih x (.inl hx) (by omega) (by omega) s
    · have hdepth := hx.depth_eq
      have hle := hx.depth_le hcap
      obtain ⟨levels, rfl⟩ : ∃ n, levels = n + 1 := ⟨levels - 1, by omega⟩
      obtain ⟨levels', rfl⟩ : ∃ n, levels' = n + 1 := ⟨levels' - 1, by omega⟩
      exact ih x (.inr hx) (by omega) (by omega) s

theorem expand_eq_self (hcap : c.settings.maxDepth = some cap) {levels : Nat}
    (hlevels : cap < levels) (node : Node) (s : State α) :
    expand c levels node s =
      expandWith c (expand c levels) (expand c levels) (expand c levels) node s := by
  rw [expand_eq]
  refine expandWith_congr (fun _ _ _ => rfl) (fun x hx s => ?_) s
  have hdepth := hx.depth_eq
  obtain ⟨levels, rfl⟩ : ∃ n, levels = n + 1 := ⟨levels - 1, by omega⟩
  exact expand_eq_of_cap_lt hcap (by omega) (by omega) s

theorem eq_expand_of_self (hcap : c.settings.maxDepth = some cap) {levels : Nat}
    (hlevels : cap < levels) {go : Expander α}
    (hgo : ∀ node s, go node s = expandWith c go go go node s) (node : Node) (s : State α) :
    go node s = expand c levels node s := by
  induction node using (wellFounded_passesOn hcap).induction generalizing s with
  | _ node ih =>
    rw [hgo, expand_eq_self hcap hlevels]
    exact expandWith_congr (fun x hx s => ih x (.inl hx) s) (fun x hx s => ih x (.inr hx) s) s

end TextGrammar.Expansion
