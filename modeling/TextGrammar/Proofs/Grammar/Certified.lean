import TextGrammar.Proofs.Expansion.Certificate
import TextGrammar.Proofs.Grammar.Runs

/-!
# Trees that account for their text

The tree that a grammar returns for a rule tells how its text came about: every node in it is
certified by its children (`Grammar.expand_certified`). The escape marks are the exception. They are
kept everywhere in the tree, and if they are not wanted they are taken out of the text of the root,
once it is finished.
-/

namespace TextGrammar.Grammar

variable {α : Type} [Scalar α] {g : Grammar α} {rule : Text}

/-- **A finished tree accounts for its text.**  Each node in it is expanded, has the sections of its
rule below it, and has the text that its kind, its tag and the texts of these make; and the root has
the rule that was expanded. Without the escape marks only the text of the root is another one. -/
theorem expand_certified (hdone : (g.expand rule true).halt = none) :
    let e := g.expand rule true
    (∀ n : Node, n.In e.node → n.Certified g.settings.maxDepth g.modifiers) ∧
      e.node.seat = (⟨.unparsed, rule⟩, 0, 0) ∧
      e.node.childRule = some rule ∧ e.node.text = e.node.inner ∧
      g.expand rule false =
        { e with node := { e.node with text := Escape.strip e.node.text } } := by
  intro e
  have hfinished : Expansion.Finished g.context (Node.root rule).seat e.node :=
    Expansion.certifies_expand g.settings.levels (Node.root rule) g.state rfl
      (Node.blank_root rule) hdone
  have hkind : e.node.kind = .unparsed := congrArg (·.1.kind) hfinished.seat
  have hraw : e.node.raw = rule := congrArg (·.1.raw) hfinished.seat
  obtain ⟨hrule, htext⟩ : e.node.childRule = some e.node.raw ∧ e.node.text = e.node.inner := by
    have htells := hfinished.certified.tells
    simpa only [Node.Tells, hkind] using htells
  exact ⟨hfinished.certifiedTree, hfinished.seat, hraw ▸ hrule, htext, rfl⟩

/-- Actions, a tag without a clause, a modifier that is not registered, a tag below the cap, and an
escape mark. -/
theorem expand_certified_capped :
    let rules := ofRules [("a", ["b#c.up#"]), ("c", ["d"])]
    let g := { rules with settings := { maxDepth := some 1 } }.register
      [("up".toList, fun text _ => '!' :: text)]
    let rule := "[x:1]#[y:2]a.up.no(1)##[x:POP]#\\#".toList
    let e := g.expand rule true
    e.halt = none ∧ e.node.text = "!b((c))((.no))\\#".toList ∧ e.node.text = e.node.inner ∧
      e.node.childRule = some rule ∧
      (∀ n : Node, n.In e.node → n.Certified (some 1) g.modifiers) ∧
      (g.expand rule false).node.text = "!b((c))((.no))#".toList ∧
      (g.expand rule false).node.children = e.node.children := by
  intro rules g rule e
  have hdone : e.halt = none := by decide +kernel
  obtain ⟨hcertified, -, hrule, htext, hstrip⟩ := expand_certified hdone
  have htext' : e.node.text = "!b((c))((.no))\\#".toList := by decide +kernel
  refine ⟨hdone, htext', htext, hrule, hcertified, ?_, ?_⟩
  · rw [hstrip]
    simp only [e] at htext'
    rw [htext']
    decide +kernel
  · rw [hstrip]

end TextGrammar.Grammar
