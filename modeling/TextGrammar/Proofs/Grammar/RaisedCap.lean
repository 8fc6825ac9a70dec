import TextGrammar.Proofs.Expansion.Relaxed
import TextGrammar.Proofs.Grammar.Termination

/-!
# A cap that was not met

A grammar caps its depth so that its expansions end, and an expansion that meets the cap says so.
One that does not say so is not changed by the cap: under any higher cap and under none it is the
same, with the same tree and reports, the same draws and the same rules left behind
(`Grammar.expand_withCap`).
-/

namespace TextGrammar.Grammar

variable {α : Type} {g : Grammar α} {cap : Nat} {cap' : Option Nat}

/-- The grammar under another cap, or under none. -/
def withCap (g : Grammar α) (cap : Option Nat) : Grammar α :=
  { g with settings := { g.settings with maxDepth := cap } }

theorem relaxed_withCap (hcap : g.settings.maxDepth = some cap) (hle : ∀ m ∈ cap', cap ≤ m) :
    g.context.Relaxed (g.withCap cap').context where
  separator := rfl
  modifiers := rfl
  fallbacks := rfl
  uncapped depth h := by
    have hdepth : depth ≤ cap := Expansion.depth_le_of_uncapped h hcap
    exact Expansion.uncapped_of_depth_le fun m hm => Nat.le_trans hdepth (hle m hm)

variable [Scalar α] {rule : Text} {keepEscapes : Bool}

theorem expandWithin_withCap (hcap : g.settings.maxDepth = some cap)
    (hdone : (g.expand rule keepEscapes).halt = none)
    (huncut : ∀ name depth,
      .depthExceeded name depth ∉ (g.expand rule keepEscapes).node.problems)
    (hle : ∀ m ∈ cap', cap ≤ m) {levels : Nat} (hlevels : cap < levels) :
    (g.withCap cap').expandWithin levels rule keepEscapes =
      { g.expand rule keepEscapes with
        grammar := (g.expand rule keepEscapes).grammar.withCap cap' } := by
  rw [halt_expand] at hdone
  rw [problems_expand] at huncut
  have hlevels' := cap_lt_levels hcap
  let o := Expansion.expand g.context g.settings.levels (Node.root rule) g.state
  have hsame : Expansion.expand (g.withCap cap').context levels (Node.root rule) g.state = o :=
    (relaxed_withCap hcap hle).expand_eq hcap (by omega) (by omega) g.state ⟨hdone, huncut⟩
  have hagree : Expansion.Agree Eq o o := ⟨rfl, rfl, rfl⟩
  exact expandWithin_of_agree rfl hsame hagree rfl (·.withCap cap') rfl keepEscapes

/-- **A cap that was not met changes nothing.**  If an expansion is finished and reports no tag
below the cap, then under every higher cap and under none it is the same: the tree with its texts
and reports, what was done and drawn, and the grammar afterwards. Without a cap this holds of all
levels beyond the cap there was, so of those that an expansion is given. -/
theorem expand_withCap (hcap : g.settings.maxDepth = some cap)
    (hdone : (g.expand rule keepEscapes).halt = none)
    (huncut : ∀ name depth,
      .depthExceeded name depth ∉ (g.expand rule keepEscapes).node.problems) :
    let e := g.expand rule keepEscapes
    (∀ cap' ≥ cap, (g.withCap (some cap')).expand rule keepEscapes =
        { e with grammar := e.grammar.withCap (some cap') }) ∧
      (∀ levels > cap, (g.withCap none).expandWithin levels rule keepEscapes =
        { e with grammar := e.grammar.withCap none }) ∧
      (cap < UInt64.size → (g.withCap none).expand rule keepEscapes =
        { e with grammar := e.grammar.withCap none }) := by
  intro e
  have hsame : ∀ {cap' : Option Nat}, (∀ m ∈ cap', cap ≤ m) → ∀ levels > cap,
      (g.withCap cap').expandWithin levels rule keepEscapes =
        { e with grammar := e.grammar.withCap cap' } := fun hle _ hlevels =>
    expandWithin_withCap hcap hdone huncut hle hlevels
  have hnone : ∀ m ∈ (none : Option Nat), cap ≤ m := fun m hm => absurd hm (Option.not_mem_none m)
  refine ⟨fun cap' hle => ?_, hsame hnone, hsame hnone _⟩
  refine hsame (fun m hm => ?_) _ (Nat.lt_succ_of_le hle)
  obtain rfl : cap' = m := Option.some.inj hm
  exact hle

/-- The deepest tag stands in a rule that is pushed, and its text is thrown away. It is as deep as
the cap; with one less it would be reported. -/
theorem expand_withCap_deepest :
    let g := { ofRules [("a", ["x[b:#c#]#b#[b:POP]"]), ("c", ["y"])] with
      settings := { maxDepth := some 4 } }
    let e := g.expand "#a#".toList false
    e.halt = none ∧ e.node.text = "xy".toList ∧ e.node.problems = [] ∧
      (∀ cap ≥ 4, (g.withCap (some cap)).expand "#a#".toList false =
        { e with grammar := e.grammar.withCap (some cap) }) ∧
      (g.withCap none).expand "#a#".toList false =
        { e with grammar := e.grammar.withCap none } ∧
      ((g.withCap (some 3)).expand "#a#".toList false).node.problems =
        [.depthExceeded "c".toList 3] := by
  intro g e
  have hdone : e.halt = none := by decide +kernel
  have hproblems : e.node.problems = [] := by decide +kernel
  have huncut : ∀ name depth, .depthExceeded name depth ∉ e.node.problems := by
    rw [hproblems]
    exact fun _ _ => List.not_mem_nil
  have hcap : g.settings.maxDepth = some 4 := rfl
  obtain ⟨hhigher, -, hnone⟩ := expand_withCap hcap hdone huncut
  exact ⟨hdone, by decide +kernel, hproblems, hhigher, hnone (by decide), by decide +kernel⟩

end TextGrammar.Grammar
