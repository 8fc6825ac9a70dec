import TextGrammar.Proofs.Expansion.Cap

/-!
# Trees under a cap

Since the children of a node are what became of nodes that it passed on, no node of a tree lies more
than one below the cap, and a tag that lies below the cap has nothing under it (`withinCap_of_in`).
-/

namespace TextGrammar

/-- `n.In tree`: the node `n` occurs in a tree. -/
inductive Node.In : Node → Node → Prop
  | root (n : Node) : n.In n
  | child {n child tree : Node} : child ∈ tree.children → n.In child → n.In tree

theorem Node.In.eq_of_children {n tree : Node} (h : n.In tree) (hchildren : tree.children = []) :
    n = tree := by
  cases h with
  | root => rfl
  | child hchild => simp [hchildren] at hchild

theorem Node.In.of_stripEscapes {n tree : Node} (h : n.In tree.stripEscapes) :
    n = tree.stripEscapes ∨ n.In tree := by
  cases h with
  | root => exact .inl rfl
  | child hchild h => exact .inr (.child hchild h)

/-- The node lies at most one below the cap, and below the cap a tag has nothing under it. -/
structure Node.WithinCap (cap : Nat) (n : Node) : Prop where
  depth_le : n.depth ≤ cap + 1
  children : n.kind = .tag → cap < n.depth → n.children = []
  childRule : n.kind = .tag → cap < n.depth → n.childRule = none

namespace Expansion

variable {α : Type} {c : Context α} {nested selected : Expander α} {node x n : Node} {s : State α}

theorem Inside.kind_ne (h : Inside c node x) (hkind : node.kind = .unparsed) :
    x.kind ≠ .unparsed := by
  cases h with
  | part _ hx => exact kind_ne_of_mem_scan (Node.of_mem_ofSections hx).2.2
  | action h | preaction h => simp [h] at hkind

theorem Selectable.kind_ne (h : Selectable c node x) : x.kind ≠ .unparsed := by
  obtain ⟨rule, hx⟩ := h.mem
  exact kind_ne_of_mem_scan (Node.of_mem_ofSections hx).2.2

/-- Below the cap a tag keeps what it has. -/
theorem Origin.kept {cap : Nat} {o : Outcome α} (h : Origin c nested selected node o)
    (hcap : c.settings.maxDepth = some cap) (hkind : o.node.kind = .tag)
    (hlt : cap < o.node.depth) :
    o.node.children = node.children ∧ o.node.childRule = node.childRule := by
  obtain ⟨hdepth, hk, hoff, -⟩ := h
  cases hoff with
  | same hchildren hrule => exact ⟨hchildren, hrule⟩
  | parts hkind' => simp [← hk, hkind] at hkind'
  | selected _ huncapped =>
    have hle := depth_le_of_uncapped huncapped hcap
    omega

variable [Scalar α]

/-- **Everything in a tree is within the cap**, if its root is not below it. -/
theorem withinCap_of_in {cap : Nat} (hcap : c.settings.maxDepth = some cap)
    (hdepth : node.depth ≤ cap + 1) (hkind : node.kind = .unparsed → node.depth ≤ cap)
    (hchildren : node.children = []) (hrule : node.childRule = none) {levels : Nat}
    (h : n.In (expand c levels node s).node) : n.WithinCap cap := by
  induction node using (wellFounded_passesOn hcap).induction generalizing levels s with
  | _ node ih =>
    have horigin : Origin c (expand c levels) (levelBelow c levels) node
        (expand c levels node s) := by
      rw [expand_eq]
      exact origin_expandWith
    cases h with
    | root =>
      refine ⟨horigin.depth ▸ hdepth, fun hk hlt => ?_, fun hk hlt => ?_⟩
      · rw [(horigin.kept hcap hk hlt).1, hchildren]
      · rw [(horigin.kept hcap hk hlt).2, hrule]
    | child hchild h =>
      cases horigin.offspring with
      | same hsame => simp [hsame, hchildren] at hchild
      | parts hk hmade =>
        obtain ⟨x, hx, t, rfl⟩ := hmade _ hchild
        have hle := hkind hk
        have hdepth' := hx.depth_eq
        exact ih x (.inl hx) (by omega) (fun h => absurd h (hx.kind_ne hk)) hx.fresh.children
          hx.fresh.childRule h
      | selected hk huncapped hmade =>
        obtain ⟨x, hx, t, rfl⟩ := hmade _ hchild
        have hle := hx.depth_le hcap
        have hdepth' := hx.depth_eq
        cases levels with
        | zero =>
          -- without levels the sections stay as they are
          rw [h.eq_of_children hx.fresh.children]
          exact ⟨by simp only [levelBelow, exhaust]; omega, fun _ _ => hx.fresh.children,
            fun _ _ => hx.fresh.childRule⟩
        | succ levels =>
          exact ih x (.inr hx) (by omega) (fun h => absurd h hx.kind_ne) hx.fresh.children
            hx.fresh.childRule h

end Expansion

end TextGrammar
