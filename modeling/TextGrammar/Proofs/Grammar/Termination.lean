import TextGrammar.Proofs.Expansion.Tree
import TextGrammar.Proofs.Grammar.Runs

/-!
# Termination under a cap

Grammars refer to themselves and rewrite their own rules while they are expanded, and a tag below
the cap still runs its actions. All the same a cap on the depth is enough for every expansion to
end (`Grammar.expand_of_maxDepth`): the bounds that an expansion is given never show in what it
gives, so it is the recursion of nodes over the nodes they pass on, which has one solution only.
-/

namespace TextGrammar.Grammar

variable {α : Type} {g : Grammar α} {cap levels : Nat}

theorem cap_lt_levels (hcap : g.settings.maxDepth = some cap) : cap < g.settings.levels := by
  simp [Settings.levels, hcap]

variable [Scalar α]

theorem expandNodeWithin_eq (hcap : g.settings.maxDepth = some cap) (hlevels : cap < levels)
    (node : Node) : g.expandNodeWithin levels node = g.expandNode node := by
  have hlevels' := cap_lt_levels hcap
  have heq : Expansion.expand g.context levels node g.state =
      Expansion.expand g.context g.settings.levels node g.state :=
    Expansion.expand_eq_of_cap_lt hcap (by omega) (by omega) g.state
  simp only [expandNode, expandNodeWithin, heq]

theorem halt_expandNode_ne_exhausted (hcap : g.settings.maxDepth = some cap) (node : Node) :
    (g.expandNode node).halt ≠ some .exhausted := by
  have hlevels := cap_lt_levels hcap
  exact Expansion.halt_expand_ne_exhausted hcap (by omega) g.state

theorem withinCap_of_in_expand (hcap : g.settings.maxDepth = some cap) {rule : Text}
    {keepEscapes : Bool} {n : Node} (h : n.In (g.expand rule keepEscapes).node) :
    n.WithinCap cap := by
  have htree : ∀ n : Node, n.In (g.expandNode (.root rule)).node → n.WithinCap cap := fun n hn =>
    Expansion.withinCap_of_in hcap (Nat.zero_le _) (fun _ => Nat.zero_le _) rfl rfl hn
  cases keepEscapes with
  | true => exact htree n h
  | false =>
    rcases h.of_stripEscapes with rfl | h
    · have hroot := htree _ (.root _)
      exact ⟨hroot.depth_le, hroot.children, hroot.childRule⟩
    · exact htree n h

/-- **Under a cap every expansion ends.**  Expanding nodes by expanding the nodes that they pass
on has exactly one solution, which never runs out of anything and is what a grammar does, with
these levels or any more. In the tree of a rule no node lies more than one below the cap, and a tag
below the cap has neither children nor a rule. -/
theorem expand_of_maxDepth (g : Grammar α) {cap : Nat} (hcap : g.settings.maxDepth = some cap) :
    (∃ go : Expansion.Expander α,
        (∀ node s, go node s = Expansion.expandWith g.context go go go node s) ∧
        (∀ go' : Expansion.Expander α,
          (∀ node s, go' node s = Expansion.expandWith g.context go' go' go' node s) →
            go' = go) ∧
        (∀ node s, (go node s).halt ≠ some .exhausted) ∧
        ∀ levels > cap, ∀ node, g.expandNodeWithin levels node = g.finish (go node g.state)) ∧
      (∀ node, (g.expandNode node).halt ≠ some .exhausted) ∧
      ∀ rule keepEscapes,
        (g.expand rule keepEscapes).halt ≠ some .exhausted ∧
        (∀ levels > cap, g.expandWithin levels rule keepEscapes = g.expand rule keepEscapes) ∧
        ∀ n : Node, n.In (g.expand rule keepEscapes).node →
          n.depth ≤ cap + 1 ∧
            (n.kind = .tag → cap < n.depth → n.children = [] ∧ n.childRule = none) := by
  have hlevels := cap_lt_levels hcap
  refine ⟨⟨Expansion.expand g.context g.settings.levels, ?_, ?_, ?_, ?_⟩, ?_, ?_⟩
  · exact Expansion.expand_eq_self hcap hlevels
  · intro go hgo
    funext node s
    exact Expansion.eq_expand_of_self hcap hlevels hgo node s
  · exact fun node s => Expansion.halt_expand_ne_exhausted hcap (by omega) s
  · exact fun levels hlt node => expandNodeWithin_eq hcap hlt node
  · exact halt_expandNode_ne_exhausted hcap
  · intro rule keepEscapes
    refine ⟨?_, fun levels hlt => ?_, fun n hn => ?_⟩
    · have hne := halt_expandNode_ne_exhausted hcap (.root rule)
      cases keepEscapes <;> exact hne
    · simp only [expand, expandWithin, expandNodeWithin_eq hcap hlt,
        expandNodeWithin_eq hcap hlevels]
    · obtain ⟨hdepth, hchildren, hrule⟩ := withinCap_of_in_expand hcap hn
      exact ⟨hdepth, fun hk hlt => ⟨hchildren hk hlt, hrule hk hlt⟩⟩

/-- A rule that refers to itself and pushes a longer one over itself each time. The inner tag lies
below the cap: it expands what it pushes, and nothing else. -/
theorem expand_of_maxDepth_selfReferent :
    let g := { ofRules [("a", ["x#[a:#a##a#]a#"])] with settings := { maxDepth := some 1 } }
    let e := g.expand "#a#".toList true
    e.halt = none ∧ e.node.text = "x((a))".toList ∧
      (∀ levels > 1, g.expandWithin levels "#a#".toList true = e) ∧
      ∀ n : Node, n.In e.node →
        n.depth ≤ 2 ∧ (n.kind = .tag → 1 < n.depth → n.children = [] ∧ n.childRule = none) := by
  intro g e
  obtain ⟨-, hlevels, htree⟩ := (expand_of_maxDepth g rfl).2.2 "#a#".toList true
  exact ⟨by decide +kernel, by decide +kernel, hlevels, htree⟩

end TextGrammar.Grammar
