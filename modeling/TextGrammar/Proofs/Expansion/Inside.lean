import TextGrammar.Proofs.Expansion.Expander

/-!
# The nodes that a node passes on

Expanding a node expands others. Those for parts of its own text, the sections of a rule and the
texts of actions, are `Inside` it; those for the sections of a rule that is selected for it are
`Selectable`, as long as it does not lie below the cap. All of them are fresh and lie one level
down. `span` measures a text with what can still be done to it, and shrinks towards the inside
(`Inside.span_lt`); the text of a selected rule may be of any length.
-/

namespace TextGrammar.Expansion

variable {α : Type}

/-- The nodes for the texts that an action of a node at the given depth expands. -/
def actionNodes (c : Context α) (depth : Nat) : Action → List Node
  | .push _ rules => alternatives c depth rules
  | .pop _ => []
  | .evaluate rule => [Node.nested depth rule]

/-- The nodes for parts of the text of a node. -/
inductive Inside (c : Context α) (node x : Node) : Prop
  | part (hkind : node.kind = .unparsed)
      (hx : x ∈ Node.ofSections (node.depth + 1) (scan node.raw).sections)
  | action (hkind : node.kind = .action)
      (hx : x ∈ actionNodes c node.depth (Action.read node.raw))
  | preaction {clause : Tag.Clause} {p : Section} (hkind : node.kind = .tag)
      (hread : Tag.read node.raw = .clause clause) (hp : p ∈ clause.preactions)
      (hx : x ∈ actionNodes c node.depth (Action.read p.raw))

/-- The nodes for the sections of rules that may be selected for a node. -/
structure Selectable (c : Context α) (node x : Node) : Prop where
  kind : node.kind = .tag
  uncapped : c.settings.maxDepth.filter (· < node.depth) = none
  mem : ∃ rule, x ∈ Node.ofSections (node.depth + 1) (scan rule).sections

/-- The length of the text of a node, and a little more for a node that may stand for a text that
is no shorter. -/
def span (n : Node) : Nat :=
  match n.kind with
  | .action => n.raw.length + 3
  | .unparsed => n.raw.length + 2
  | .plain | .tag => n.raw.length + 1

variable {c : Context α} {node x : Node} {depth : Nat}

theorem of_mem_actionNodes {action : Action} (h : x ∈ actionNodes c depth action) :
    ∃ text, x = Node.nested depth text ∧
      ((∃ target rules, action = .push target rules ∧ text.length ≤ rules.length) ∨
        action = .evaluate text) := by
  cases action with
  | push target rules =>
    obtain ⟨text, htext, rfl⟩ := List.mem_map.1 h
    exact ⟨text, rfl, .inl ⟨target, rules, rfl, Alternatives.length_le_of_mem_split htext⟩⟩
  | pop target => simp [actionNodes] at h
  | evaluate rule => exact ⟨rule, List.mem_singleton.1 h, .inr rfl⟩

theorem span_lt_of_mem_actionNodes {raw : Text} (h : x ∈ actionNodes c depth (Action.read raw)) :
    span x < raw.length + 3 := by
  obtain ⟨text, rfl, ⟨target, rules, hread, hle⟩ | hread⟩ := of_mem_actionNodes h
  · have := Action.length_lt_of_read_eq_push hread
    simp only [span, Node.nested]
    omega
  · rw [Action.eq_of_read_eq_evaluate hread]
    simp [span, Node.nested]

theorem Inside.fresh (h : Inside c node x) : x.Fresh := by
  cases h with
  | part _ hx => exact (Node.of_mem_ofSections hx).1
  | action _ hx | preaction _ _ _ hx =>
    obtain ⟨text, rfl, -⟩ := of_mem_actionNodes hx
    exact Node.fresh_nested _ text

theorem Inside.depth_eq (h : Inside c node x) : x.depth = node.depth + 1 := by
  cases h with
  | part _ hx => exact (Node.of_mem_ofSections hx).2.1
  | action _ hx | preaction _ _ _ hx =>
    obtain ⟨text, rfl, -⟩ := of_mem_actionNodes hx
    rfl

theorem Inside.span_lt (h : Inside c node x) : span x < span node := by
  cases h with
  | part hkind hx =>
    obtain ⟨-, -, hmem⟩ := Node.of_mem_ofSections hx
    have hle := length_source_le hmem
    have hne := kind_ne_of_mem_scan hmem
    simp only [span, hkind]
    cases hx : x.kind <;> simp_all [Section.source] <;> omega
  | action hkind hx =>
    rw [show span node = node.raw.length + 3 by simp [span, hkind]]
    exact span_lt_of_mem_actionNodes hx
  | preaction hkind hread hp hx =>
    -- the delimiters of the action make up for what is added for a node that stands for a text
    obtain ⟨hmem, hplain⟩ := (Tag.of_read_eq_clause hread).2 _ hp
    have hlt := span_lt_of_mem_actionNodes hx
    have hle := length_raw_add_two_le hmem hplain
    simp only [span, hkind] at hlt ⊢
    omega

/-- Only the text, the kind and the depth of a node decide what it passes on. -/
theorem Inside.of_eq {node' : Node} (h : Inside c node' x) (hraw : node'.raw = node.raw)
    (hkind : node'.kind = node.kind) (hdepth : node'.depth = node.depth) : Inside c node x := by
  cases h with
  | part hk hx => exact .part (hkind ▸ hk) (hdepth ▸ hraw ▸ hx)
  | action hk hx => exact .action (hkind ▸ hk) (hdepth ▸ hraw ▸ hx)
  | preaction hk hread hp hx => exact .preaction (hkind ▸ hk) (hraw ▸ hread) hp (hdepth ▸ hx)

theorem Selectable.of_eq {node' : Node} (h : Selectable c node' x)
    (hkind : node'.kind = node.kind) (hdepth : node'.depth = node.depth) : Selectable c node x :=
  ⟨hkind ▸ h.kind, hdepth ▸ h.uncapped, hdepth ▸ h.mem⟩

theorem Selectable.fresh (h : Selectable c node x) : x.Fresh := by
  obtain ⟨rule, hx⟩ := h.mem
  exact (Node.of_mem_ofSections hx).1

theorem Selectable.depth_eq (h : Selectable c node x) : x.depth = node.depth + 1 := by
  obtain ⟨rule, hx⟩ := h.mem
  exact (Node.of_mem_ofSections hx).2.1

end TextGrammar.Expansion
