import TextGrammar.Proofs.Expansion.Cap
import TextGrammar.Proofs.Expansion.Follow

/-!
# Raising the cap

A tag that lies below the cap is reported, and a report is never lost on its way up: what is
recorded for a node, for a section of it or for a text that one of its actions expands is recorded
for the whole, unless the whole halts. So if a whole expansion has not halted and no such report is
in it, no tag in it was below the cap, nor in the texts that are thrown away once a push or an
evaluation has run (`Uncut`). These are the bounds within which an expansion is followed under a
higher cap, or under none (`Context.Relaxed.hold`), and so the whole is the same
(`Context.Relaxed.expand_eq`).
-/

namespace TextGrammar.Expansion

variable {α : Type} {node : Node}

/-- It has not halted, and no tag is reported to be below the cap. -/
structure Uncut (halt : Option Halt) (problems : List Diagnostic) : Prop where
  halt : halt = none
  problems : ∀ name cap, .depthExceeded name cap ∉ problems

/-- An outcome without a halt and without a tag below the cap. -/
def Outcome.Uncut (o : Outcome α) : Prop := Expansion.Uncut o.halt o.node.problems

/-- The expander `go'` does what `go` does, unless `go` meets a tag below the cap. -/
def Follows (go go' : Expander α) (x : Node) : Prop :=
  ∀ s, (go x s).Uncut → go' x s = go x s

/-- The second context differs from the first in its cap alone, and no depth is below its cap that
is not below that of the first. -/
structure Context.Relaxed (c c' : Context α) : Prop where
  separator : c'.settings.separator = c.settings.separator
  modifiers : c'.modifiers = c.modifiers
  fallbacks : c'.fallbacks = c.fallbacks
  uncapped : ∀ depth, c.settings.maxDepth.filter (· < depth) = none →
    c'.settings.maxDepth.filter (· < depth) = none

/-- No tag is below the cap, and there is no halt. -/
def Bounds.uncut : Bounds α where
  problem d := ∀ name cap, d ≠ .depthExceeded name cap
  halt _ := False
  source _ := True

theorem Outcome.Uncut.keep {o : Outcome α} (h : o.Uncut) :
    Bounds.uncut.Keep o.node.problems o.halt o.state.source where
  problem := by
    rintro _ hd name cap rfl
    exact h.problems name cap hd
  halt reason hreason := nomatch h.halt.symm.trans hreason
  source := trivial

variable [Scalar α] {c c' : Context α}

theorem Context.Relaxed.hold (hc : c.Relaxed c') : Bounds.uncut.Hold Eq c c' where
  separator := hc.separator
  uncapped := hc.uncapped
  capped _ cap symbol _ h := absurd rfl (h symbol cap)
  registered _ _ := by rw [hc.modifiers]
  enter h symbol := by rw [h]
  push h scope name rules := by rw [h]
  pop_problems h scope name := by rw [h]
  pop h scope name := by rw [h]
  select := by
    rintro s _ rfl name - -
    simp only [State.select, hc.fallbacks]
    exact ⟨trivial, trivial, trivial⟩
  unseen _ h := h.elim
  undrawn _ _ := trivial

/-- **A whole expansion in which no tag is below the cap is the same under a higher one.** -/
theorem Context.Relaxed.expand_eq (hc : c.Relaxed c') {cap levels levels' : Nat}
    (hcap : c.settings.maxDepth = some cap) (hlevels : cap < node.depth + levels)
    (hlevels' : cap < node.depth + levels') :
    Follows (expand c levels) (expand c' levels') node := by
  have hfollow : Bounds.uncut.Follows Eq (expand c levels) (expand c' levels') node := by
    induction node using (wellFounded_passesOn hcap).induction generalizing levels levels' with
    | _ node ih =>
      intro s t h hkeep
      rw [Expansion.expand_eq levels] at hkeep ⊢
      rw [Expansion.expand_eq levels']
      refine hc.hold.expandWith ?_ ?_ (fun x hx => ?_) (fun x hx => ?_) s t h hkeep
      · exact hc.hold.account.expand levels
      · cases levels with
        | zero => exact hc.hold.account.covered_exhaust
        | succ levels => exact hc.hold.account.expand levels
      · have hdepth := hx.depth_eq
        exact ih x (.inl hx) (by omega) (by omega)
      · have hdepth := hx.depth_eq
        have hle := hx.depth_le hcap
        -- a rule is selected above the cap only, where a level is left to both
        obtain ⟨levels, rfl⟩ : ∃ n, levels = n + 1 := ⟨levels - 1, by omega⟩
        obtain ⟨levels', rfl⟩ : ∃ n, levels' = n + 1 := ⟨levels' - 1, by omega⟩
        exact ih x (.inr hx) (by omega) (by omega)
  exact fun s h => (hfollow s s rfl h.keep).eq.symm

end TextGrammar.Expansion
