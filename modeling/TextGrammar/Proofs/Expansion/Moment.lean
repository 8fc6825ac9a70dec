import TextGrammar.Proofs.Expansion.Certificate
import TextGrammar.Proofs.Expansion.Steps

/-!
# How far an expansion has come

An expansion begins with each node of its tree at one `Moment`: with some levels left, and in some
state. The moment of a node settles those of its children. They are begun with one after the other,
in a tag once its actions have been run and a rule has been selected (`Moment.inside`), and each one
in the state that those before it have left (`Moment.past`). `ComesTo` follows the moments down a
tree.

Of a finished tree nothing else is needed to make any node in it again: at its moment the expansion
makes it of the node as it was before (`ComesTo.makes`).
-/

namespace TextGrammar

namespace Node

/-- The node as it was before it was expanded. -/
def unexpanded (n : Node) : Node :=
  { raw := n.raw, kind := n.kind, depth := n.depth, index := n.index }

theorem fresh_unexpanded (n : Node) : n.unexpanded.Fresh := ⟨rfl, rfl, rfl, rfl, rfl, rfl, rfl⟩

theorem Fresh.unexpanded_eq {x n : Node} (h : x.Fresh) (hseat : n.seat = x.seat) :
    n.unexpanded = x := by
  have hkind : n.kind = x.kind := congrArg (·.1.kind) hseat
  have hraw : n.raw = x.raw := congrArg (·.1.raw) hseat
  have hdepth : n.depth = x.depth := congrArg (·.2.1) hseat
  have hindex : n.index = x.index := congrArg (·.2.2) hseat
  obtain ⟨hexpanded, htext, hchildren, hproblems, hsymbol, hmodifiers, hrule⟩ := h
  cases x
  simp_all only [unexpanded]

theorem children_applyAll (r : Registry) (n : Node) : (r.applyAll n).children = n.children := by
  obtain ⟨text, problems, hsame⟩ := r.applyAll_eq n
  rw [hsame]

end Node

namespace Expansion

variable {α : Type}

/-! ### Nodes that an expander makes -/

/-- From the state, the expander makes the node of the node as it was before. -/
structure Makes (go : Expander α) (s : State α) (n : Node) : Prop where
  halt : (go n.unexpanded s).halt = none
  node : (go n.unexpanded s).node = n

/-- The expander makes the nodes, each from the state that the one before it has left. -/
def MakesEach (go : Expander α) : State α → List Node → Prop
  | _, [] => True
  | s, n :: nodes => Makes go s n ∧ MakesEach go (go n.unexpanded s).state nodes

variable {c : Context α} {go nested selected : Expander α} {node x n child tree : Node}
  {s : State α} {clause : Tag.Clause}

theorem MakesEach.of_nil {nodes : List Node} (h : nodes = []) : MakesEach go s nodes := by
  rw [h]
  trivial

theorem MakesEach.makes {before after : List Node}
    (h : MakesEach go s (before ++ child :: after)) :
    Makes go (expandEach go (before.map (·.unexpanded)) s).2.1 child := by
  induction before generalizing s with
  | nil => exact h.1
  | cons n before ih =>
    obtain ⟨hn, hrest⟩ := h
    rw [List.map_cons, expandEach_cons_of_done hn.halt]
    exact ih hrest

theorem makesEach_expandEach (hgo : Certifies c go) {nodes : List Node}
    (hnodes : ∀ x ∈ nodes, x.Fresh) (h : (expandEach go nodes s).2.2 = none) :
    MakesEach go s (expandEach go nodes s).1 := by
  induction nodes generalizing s with
  | nil => trivial
  | cons x nodes ih =>
    obtain ⟨hx, hnodes⟩ := List.forall_mem_cons.1 hnodes
    cases hhalt : (go x s).halt with
    | some reason =>
      rw [expandEach_cons_of_halt hhalt] at h
      cases h
    | none =>
      rw [expandEach_cons_of_done hhalt] at h ⊢
      have hseat : (go x s).node.seat = x.seat := (hgo x s hx.expanded hx.blank hhalt).seat
      have hbefore : (go x s).node.unexpanded = x := hx.unexpanded_eq hseat
      refine ⟨⟨?_, ?_⟩, ?_⟩
      · rw [hbefore, hhalt]
      · rw [hbefore]
      · rw [hbefore]
        exact ih hnodes h

theorem makesEach_expandRule (hgo : Certifies c go) {rule : Text}
    (h : (expandRule go node rule s).halt = none) :
    MakesEach go s (expandRule go node rule s).node.children :=
  makesEach_expandEach hgo (fun _ hx => (Node.of_mem_ofSections hx).1) h

variable [Scalar α]

theorem makesEach_resolve (hselected : Certifies c selected) {symbol : Text}
    (hchildren : node.children = []) (h : (resolve c selected symbol node s).halt = none) :
    MakesEach selected (s.select c symbol).2.2 (resolve c selected symbol node s).node.children := by
  cases hcap : c.settings.maxDepth.filter (· < node.depth) with
  | some cap =>
    rw [resolve_of_capped hcap]
    exact .of_nil hchildren
  | none =>
    cases hrule : (s.select c symbol).1 with
    | none =>
      rw [resolve_of_unselected hcap hrule, Node.children_applyAll]
      exact .of_nil hchildren
    | some rule =>
      let main := expandRule selected (node.report (s.select c symbol).2.1) rule
        (s.select c symbol).2.2
      cases hhalt : main.halt with
      | some reason =>
        rw [resolve_of_halt hcap hrule rfl hhalt] at h
        exact nomatch h.symm.trans hhalt
      | none =>
        rw [resolve_of_done hcap hrule rfl hhalt, Node.children_applyAll]
        exact makesEach_expandRule hselected hhalt

theorem makesEach_expandTag (hselected : Certifies c selected)
    (hread : Tag.read node.raw = .clause clause) (hchildren : node.children = [])
    (h : (expandTag c nested selected node s).halt = none) :
    MakesEach selected
      ((runActions c nested node.depth clause s).1.state.select c clause.symbol).2.2
      (expandTag c nested selected node s).node.children := by
  rcases hrun : runActions c nested node.depth clause s with ⟨before, undos⟩
  cases hhalt : before.halt with
  | some reason =>
    rw [expandTag_of_halt hread hrun hhalt] at h
    cases h
  | none =>
    rw [expandTag_of_done hread hrun hhalt] at h ⊢
    let begun := (enterClause node clause).report before.problems
    have hbegun : begun.children = [] := hchildren
    exact makesEach_resolve hselected hbegun h

/-- An expansion without levels makes no sections of selected rules. -/
theorem MakesEach.of_levelBelow {levels : Nat} {nodes : List Node}
    (h : MakesEach (levelBelow c levels) s nodes) : MakesEach (expand c (levels - 1)) s nodes := by
  cases levels with
  | zero =>
    cases nodes with
    | nil => exact .of_nil rfl
    | cons n nodes => exact nomatch h.1.halt
  | succ levels => exact h

theorem certifies_levelBelow (levels : Nat) : Certifies c (levelBelow c levels) := by
  cases levels with
  | zero => exact certifies_exhaust
  | succ levels => exact certifies_expand levels

/-! ### Moments -/

/-- How far an expansion has come: the levels that it has left, and its state. -/
structure Moment (α : Type) where
  levels : Nat
  state : State α

namespace Moment

variable (c : Context α) (m : Moment α)

/-- The moment after nodes that were expanded one after the other. -/
def past (nodes : List Node) : Moment α :=
  { m with state := (expandEach (expand c m.levels) (nodes.map (·.unexpanded)) m.state).2.1 }

/-- When the expansion begins with the sections of a node's rule, if it begins with the node at the
moment `m`. In a tag the actions have been run by then, and a rule has been selected. -/
def inside (n : Node) : Moment α :=
  match n.kind with
  | .tag =>
    match Tag.read n.raw with
    | .clause clause =>
      let ready := (runActions c (expand c m.levels) n.depth clause m.state).1.state
      ⟨m.levels - 1, (ready.select c clause.symbol).2.2⟩
    | .ambiguous | .silent => m
  | .unparsed | .plain | .action => m

variable {m}

theorem inside_of_unparsed (hkind : n.kind = .unparsed) : m.inside c n = m := by
  simp only [inside, hkind]

theorem inside_of_clause (hkind : n.kind = .tag) (hread : Tag.read n.raw = .clause clause) :
    m.inside c n =
      { levels := m.levels - 1
        state := ((runActions c (expand c m.levels) n.depth clause m.state).1.state.select c
          clause.symbol).2.2 } := by
  simp only [inside, hkind, hread]

theorem inside_congr (hseat : n.seat = x.seat) : m.inside c n = m.inside c x := by
  have hkind : n.kind = x.kind := congrArg (·.1.kind) hseat
  have hraw : n.raw = x.raw := congrArg (·.1.raw) hseat
  have hdepth : n.depth = x.depth := congrArg (·.2.1) hseat
  simp only [inside, hkind, hraw, hdepth]

end Moment

variable {m m' : Moment α}

/-- **The children of a node are made one after the other**, beginning at the moment inside it. -/
theorem makesEach_children (hexpanded : x.expanded = false) (hblank : x.Blank)
    (h : (expand c m.levels x m.state).halt = none) :
    MakesEach (expand c (m.inside c x).levels) (m.inside c x).state
      (expand c m.levels x m.state).node.children := by
  have hself : Certifies c (expand c m.levels) := certifies_expand m.levels
  rw [expand_eq] at h ⊢
  cases hkind : x.kind with
  | unparsed =>
    rw [expandWith_of_unparsed hexpanded hkind] at h ⊢
    rw [Moment.inside_of_unparsed c hkind]
    exact makesEach_expandRule hself h
  | plain =>
    rw [expandWith_of_plain hexpanded hkind]
    exact .of_nil hblank.children
  | action =>
    rw [expandWith_of_action hexpanded hkind rfl]
    exact .of_nil hblank.children
  | tag =>
    rw [expandWith_of_tag hexpanded hkind] at h ⊢
    let begun : Node := { x with expanded := true }
    have hbegun : begun.children = [] := hblank.children
    cases hread : Tag.read begun.raw with
    | ambiguous =>
      rw [expandTag_of_ambiguous hread] at h
      cases h
    | silent =>
      rw [expandTag_of_silent hread]
      exact .of_nil hbegun
    | clause clause =>
      rw [Moment.inside_of_clause c hkind hread]
      exact (makesEach_expandTag (certifies_levelBelow m.levels) hread hbegun h).of_levelBelow

/-- `ComesTo c m tree m' n`: an expansion that begins with `tree` at the moment `m` comes to the
node `n` of it at the moment `m'`. -/
inductive ComesTo (c : Context α) : Moment α → Node → Moment α → Node → Prop
  | here (m : Moment α) (n : Node) : ComesTo c m n m n
  | child {m m' : Moment α} {tree child n : Node} {before after : List Node}
    (hchildren : tree.children = before ++ child :: after)
    (h : ComesTo c ((m.inside c tree).past c before) child m' n) : ComesTo c m tree m' n

theorem makes_child {before after : List Node} (hexpanded : x.expanded = false)
    (hblank : x.Blank) (h : (expand c m.levels x m.state).halt = none)
    (hchildren : (expand c m.levels x m.state).node.children = before ++ child :: after) :
    Makes (expand c ((m.inside c x).past c before).levels) ((m.inside c x).past c before).state
      child := by
  have heach := makesEach_children hexpanded hblank h
  rw [hchildren] at heach
  exact heach.makes

/-- **At its moment every node is made** of the node as it was, if the tree is. -/
theorem ComesTo.makes (h : ComesTo c m tree m' n)
    (htree : Makes (expand c m.levels) m.state tree) :
    Makes (expand c m'.levels) m'.state n := by
  induction h with
  | here => exact htree
  | @child m m' tree child n before after hchildren _ ih =>
    have hfresh := tree.fresh_unexpanded
    have hinside : m.inside c tree.unexpanded = m.inside c tree := m.inside_congr c rfl
    have hchild := makes_child hfresh.expanded hfresh.blank htree.halt (htree.node.symm ▸ hchildren)
    rw [hinside] at hchild
    exact ih hchild

end Expansion

end TextGrammar
