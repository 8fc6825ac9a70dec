import TextGrammar.Proofs.Expansion.Tree

/-!
# Certified trees

A finished tree can be checked without the grammar that it was made with. What each node tells about
itself is a matter of the node and its children alone: which sections of which rule the children
are, and how the text comes from theirs (`Node.Certified`). All that is needed besides are the cap
and the modifiers.

An expansion puts a text together in several places, and takes some of it back again. That the
equations hold in the end is one lemma for each function that expands nodes, about an expansion that
does not halt; the children then are what other such expansions have made (`Finished`), so the
equations hold everywhere in the tree (`certifies_expand`).
-/

namespace TextGrammar

/-! ### What modifiers do to a text -/

namespace Registry

/-- The text that a modifier makes of a text. One that is not registered leaves a placeholder behind
it. -/
def rewriteOnce (r : Registry) (text reference : Text) : Text :=
  let spec := ModifierSpec.read reference
  match r.find? spec.name with
  | some f => f text spec.params
  | none => text ++ Text.placeholder ('.' :: spec.name)

/-- The text that modifiers make of a text, the leftmost applied first. -/
def rewrite (r : Registry) (references : List Text) (text : Text) : Text :=
  references.foldl r.rewriteOnce text

theorem text_apply (r : Registry) (n : Node) (reference : Text) :
    (r.apply n reference).text = r.rewriteOnce n.text reference := by
  simp only [apply, rewriteOnce]
  cases r.find? (ModifierSpec.read reference).name <;> rfl

theorem text_applyAll (r : Registry) (n : Node) :
    (r.applyAll n).text = r.rewrite n.modifiers n.text := by
  unfold applyAll rewrite
  generalize n.modifiers = references
  induction references generalizing n with
  | nil => rfl
  | cons reference references ih => rw [List.foldl_cons, List.foldl_cons, ih, text_apply]

end Registry

/-! ### Nodes -/

namespace Node

/-- What a node is the section of, and where it stands. -/
def seat (n : Node) : Section × Nat × Nat := (n.part, n.depth, n.index)

/-- The children are the sections of a rule, in order, one level down. -/
def HasSections (n : Node) (rule : Text) : Prop :=
  n.children.map seat = (scan rule).sections.mapIdx fun index x => (x, n.depth + 1, index)

/-- The texts of the children in order. -/
def inner (n : Node) : Text := n.children.flatMap (·.text)

/-- What a tag with a clause tells of itself. Below the cap a placeholder is its text. -/
def TellsClause (cap : Option Nat) (r : Registry) (clause : Tag.Clause) (n : Node) : Prop :=
  n.symbol = some clause.symbol ∧ n.modifiers = clause.modifiers ∧
    ((∀ m ∈ cap, n.depth ≤ m) → n.text = r.rewrite clause.modifiers n.inner) ∧
    ((∃ m ∈ cap, m < n.depth) →
      n.childRule = none ∧ n.text = Text.placeholder clause.symbol)

/-- What a node tells of itself, by its kind. -/
def Tells (cap : Option Nat) (r : Registry) (n : Node) : Prop :=
  match n.kind with
  | .unparsed => n.childRule = some n.raw ∧ n.text = n.inner
  | .plain => n.childRule = none ∧ n.text = n.raw
  | .action => n.childRule = none ∧ n.text = []
  | .tag =>
    match Tag.read n.raw with
    | .ambiguous => False
    | .silent => n.childRule = none ∧ n.text = []
    | .clause clause => n.TellsClause cap r clause

theorem TellsClause.tells {cap : Option Nat} {r : Registry} {clause : Tag.Clause} {n : Node}
    (h : n.TellsClause cap r clause) (hkind : n.kind = .tag)
    (hread : Tag.read n.raw = .clause clause) : n.Tells cap r := by
  unfold Tells
  simp only [hkind, hread]
  exact h

/-- A node whose children and text are what they have to be. -/
structure Certified (cap : Option Nat) (r : Registry) (n : Node) : Prop where
  expanded : n.expanded = true
  sections : ∀ rule, n.childRule = some rule → n.HasSections rule
  childless : n.childRule = none → n.children = []
  tells : n.Tells cap r

/-- Every node in the tree is certified. -/
def CertifiedTree (cap : Option Nat) (r : Registry) (tree : Node) : Prop :=
  ∀ n : Node, n.In tree → n.Certified cap r

/-- A node with nothing in it that expanding it would give. -/
structure Blank (n : Node) : Prop where
  text : n.text = []
  children : n.children = []
  childRule : n.childRule = none

theorem blank_root (rule : Text) : (root rule).Blank := ⟨rfl, rfl, rfl⟩

theorem Fresh.blank {n : Node} (h : n.Fresh) : n.Blank := ⟨h.text, h.children, h.childRule⟩

theorem seat_ofSections (depth : Nat) (sections : List Section) :
    (ofSections depth sections).map seat =
      sections.mapIdx fun index x => (x, depth, index) := by
  refine List.ext_getElem (by simp [ofSections]) fun i h h' => ?_
  simp [ofSections, seat, part]

end Node

namespace Expansion

variable {α : Type} {c : Context α} {go nested selected : Expander α} {node n : Node}
  {s : State α} {clause : Tag.Clause}

/-- `n` is what became of the node in a place: it and everything below it are certified. -/
structure Finished (c : Context α) (place : Section × Nat × Nat) (n : Node) : Prop where
  seat : n.seat = place
  certified : n.Certified c.settings.maxDepth c.modifiers
  below : ∀ child ∈ n.children, child.CertifiedTree c.settings.maxDepth c.modifiers

/-- Unless it halts, the expander finishes a node. -/
def Certifies (c : Context α) (go : Expander α) : Prop :=
  ∀ node s, node.expanded = false → node.Blank → (go node s).halt = none →
    Finished c node.seat (go node s).node

theorem certifies_exhaust : Certifies c exhaust := fun _ _ _ _ h => nomatch h

theorem Finished.certifiedTree {place : Section × Nat × Nat} (h : Finished c place n) :
    n.CertifiedTree c.settings.maxDepth c.modifiers := by
  rintro m (_ | ⟨hchild, hm⟩)
  · exact h.certified
  · exact h.below _ hchild m hm

theorem Finished.report {place : Section × Nat × Nat} (h : Finished c place n)
    (problems : List Diagnostic) : Finished c place (n.report problems) :=
  ⟨h.seat, ⟨h.certified.expanded, h.certified.sections, h.certified.childless, h.certified.tells⟩,
    h.below⟩

/-! ### Sections -/

/-- The node has the sections of its rule below it, if it has a rule, and their texts in order are
its own. -/
structure Gathered (c : Context α) (n : Node) : Prop where
  sections : ∀ rule, n.childRule = some rule → n.HasSections rule
  childless : n.childRule = none → n.children = []
  text : n.text = n.inner
  below : ∀ child ∈ n.children, child.CertifiedTree c.settings.maxDepth c.modifiers

theorem Gathered.of_blank (h : n.Blank) : Gathered c n where
  sections rule hrule := nomatch h.childRule.symm.trans hrule
  childless _ := h.children
  text := by simp [Node.inner, h.text, h.children]
  below := by simp [h.children]

theorem finished_expandEach (hgo : Certifies c go) {nodes : List Node}
    (hnodes : ∀ x ∈ nodes, x.Fresh) (h : (expandEach go nodes s).2.2 = none) :
    (expandEach go nodes s).1.map Node.seat = nodes.map Node.seat ∧
      ∀ child ∈ (expandEach go nodes s).1,
        child.CertifiedTree c.settings.maxDepth c.modifiers := by
  induction nodes generalizing s with
  | nil => exact ⟨rfl, by simp [expandEach]⟩
  | cons x nodes ih =>
    obtain ⟨hx, hnodes⟩ := List.forall_mem_cons.1 hnodes
    cases hhalt : (go x s).halt with
    | some reason =>
      rw [expandEach_cons_of_halt hhalt] at h
      cases h
    | none =>
      rw [expandEach_cons_of_done hhalt] at h ⊢
      have hfirst : Finished c x.seat (go x s).node := hgo x s hx.expanded hx.blank hhalt
      obtain ⟨hseats, hbelow⟩ := ih hnodes h
      refine ⟨by rw [List.map_cons, List.map_cons, hfirst.seat, hseats], ?_⟩
      exact List.forall_mem_cons.2 ⟨hfirst.certifiedTree, hbelow⟩

theorem gathered_expandRule (hgo : Certifies c go) {rule : Text}
    (h : (expandRule go node rule s).halt = none) :
    Gathered c (expandRule go node rule s).node := by
  obtain ⟨hseats, hbelow⟩ := finished_expandEach hgo
    (fun x hx => (Node.of_mem_ofSections hx).1) h
  refine ⟨?_, nofun, rfl, hbelow⟩
  rintro _ ⟨⟩
  exact hseats.trans (Node.seat_ofSections _ _)

theorem Gathered.finished (h : Gathered c node) (hexpanded : node.expanded = true)
    (htells : node.Tells c.settings.maxDepth c.modifiers) : Finished c node.seat node :=
  ⟨rfl, ⟨hexpanded, h.sections, h.childless, htells⟩, h.below⟩

theorem Gathered.finished_with (h : Gathered c node) (hexpanded : node.expanded = true)
    {text : Text} {problems : List Diagnostic}
    (htells : Node.Tells c.settings.maxDepth c.modifiers { node with text, problems }) :
    Finished c node.seat { node with text, problems } :=
  ⟨rfl, ⟨hexpanded, h.sections, h.childless, htells⟩, h.below⟩

/-! ### Tags -/

/-- A tag node whose text is taken apart. -/
structure Entered (clause : Tag.Clause) (n : Node) : Prop where
  kind : n.kind = .tag
  read : Tag.read n.raw = .clause clause
  symbol : n.symbol = some clause.symbol
  modifiers : n.modifiers = clause.modifiers
  expanded : n.expanded = true

/-- Modifiers come last, and they look at the text alone. -/
theorem Entered.finished_applyAll (hnode : Entered clause node) (hgathered : Gathered c node)
    (huncapped : ¬∃ m ∈ c.settings.maxDepth, m < node.depth) :
    Finished c node.seat (c.modifiers.applyAll node) := by
  have htext : (c.modifiers.applyAll node).text =
      c.modifiers.rewrite clause.modifiers node.inner := by
    rw [Registry.text_applyAll, hnode.modifiers, hgathered.text]
  obtain ⟨text, problems, hsame⟩ := c.modifiers.applyAll_eq node
  rw [hsame] at htext ⊢
  have htells : Node.TellsClause c.settings.maxDepth c.modifiers clause
      { node with text, problems } :=
    ⟨hnode.symbol, hnode.modifiers, fun _ => htext, fun hcapped => absurd hcapped huncapped⟩
  exact hgathered.finished_with hnode.expanded (htells.tells hnode.kind hnode.read)

variable [Scalar α]

theorem finished_resolve (hselected : Certifies c selected) (hnode : Entered clause node)
    (hblank : node.Blank) (h : (resolve c selected clause.symbol node s).halt = none) :
    Finished c node.seat (resolve c selected clause.symbol node s).node := by
  cases hcap : c.settings.maxDepth.filter (· < node.depth) with
  | some cap =>
    rw [resolve_of_capped hcap]
    obtain ⟨hmem, hlt⟩ := Option.filter_eq_some_iff.1 hcap
    let capped : Node := { node with text := Text.placeholder clause.symbol }
    have htells : capped.TellsClause c.settings.maxDepth c.modifiers clause :=
      ⟨hnode.symbol, hnode.modifiers,
        fun hle => absurd (of_decide_eq_true hlt) (Nat.not_lt.2 (hle cap hmem)),
        fun _ => ⟨hblank.childRule, rfl⟩⟩
    have hcapped : Finished c node.seat capped :=
      (Gathered.of_blank hblank).finished_with hnode.expanded (htells.tells hnode.kind hnode.read)
    exact hcapped.report _
  | none =>
    have huncapped : ¬∃ m ∈ c.settings.maxDepth, m < node.depth := by
      rintro ⟨m, hm, hlt⟩
      exact Option.filter_eq_none_iff.1 hcap m hm (decide_eq_true hlt)
    cases hrule : (s.select c clause.symbol).1 with
    | none =>
      rw [resolve_of_unselected hcap hrule]
      let reported := node.report (s.select c clause.symbol).2.1
      have hreported : Entered clause reported :=
        ⟨hnode.kind, hnode.read, hnode.symbol, hnode.modifiers, hnode.expanded⟩
      have hgathered : Gathered c reported :=
        .of_blank ⟨hblank.text, hblank.children, hblank.childRule⟩
      exact hreported.finished_applyAll hgathered huncapped
    | some rule =>
      let main := expandRule selected (node.report (s.select c clause.symbol).2.1) rule
        (s.select c clause.symbol).2.2
      cases hhalt : main.halt with
      | some reason =>
        rw [resolve_of_halt hcap hrule rfl hhalt] at h
        exact nomatch h.symm.trans hhalt
      | none =>
        rw [resolve_of_done hcap hrule rfl hhalt]
        have hmain : Entered clause main.node :=
          ⟨hnode.kind, hnode.read, hnode.symbol, hnode.modifiers, hnode.expanded⟩
        exact hmain.finished_applyAll (gathered_expandRule hselected hhalt) huncapped

theorem finished_expandTag (hselected : Certifies c selected) (hkind : node.kind = .tag)
    (hexpanded : node.expanded = true) (hblank : node.Blank)
    (h : (expandTag c nested selected node s).halt = none) :
    Finished c node.seat (expandTag c nested selected node s).node := by
  cases hread : Tag.read node.raw with
  | ambiguous =>
    rw [expandTag_of_ambiguous hread] at h
    cases h
  | silent =>
    rw [expandTag_of_silent hread]
    have htells : node.Tells c.settings.maxDepth c.modifiers := by
      simp only [Node.Tells, hkind, hread]
      exact ⟨hblank.childRule, hblank.text⟩
    exact (Gathered.of_blank hblank).finished hexpanded htells
  | clause clause =>
    rcases hrun : runActions c nested node.depth clause s with ⟨before, undos⟩
    cases hhalt : before.halt with
    | some reason =>
      rw [expandTag_of_halt hread hrun hhalt] at h
      cases h
    | none =>
      rw [expandTag_of_done hread hrun hhalt] at h ⊢
      let entered := (enterClause node clause).report before.problems
      have hentered : Entered clause entered := ⟨hkind, hread, rfl, rfl, hexpanded⟩
      have hblank' : entered.Blank := ⟨hblank.text, hblank.children, hblank.childRule⟩
      -- what the actions have pushed is popped, and the node stays as it is
      exact (finished_resolve hselected hentered hblank' h).report _

/-! ### Nodes -/

/-- **A node that does not halt is finished**, if its sections are. -/
theorem certifies_expandWith (hnested : Certifies c nested) (hselected : Certifies c selected) :
    Certifies c (expandWith c nested nested selected) := by
  intro node s hexpanded hblank h
  let begun : Node := { node with expanded := true }
  have hbegun : begun.Blank := ⟨hblank.text, hblank.children, hblank.childRule⟩
  cases hkind : node.kind with
  | unparsed =>
    rw [expandWith_of_unparsed hexpanded hkind] at h ⊢
    have htells : (expandRule nested begun node.raw s).node.Tells c.settings.maxDepth
        c.modifiers := by
      simp only [Node.Tells, expandRule, begun, hkind]
      exact ⟨trivial, rfl⟩
    exact (gathered_expandRule hnested h).finished rfl htells
  | plain =>
    rw [expandWith_of_plain hexpanded hkind]
    have htells : Node.Tells c.settings.maxDepth c.modifiers { begun with text := node.raw } := by
      simp only [Node.Tells, begun, hkind]
      exact ⟨hblank.childRule, trivial⟩
    exact (Gathered.of_blank hbegun).finished_with rfl htells
  | tag =>
    rw [expandWith_of_tag hexpanded hkind] at h ⊢
    have htag : Finished c begun.seat (expandTag c nested selected begun s).node :=
      finished_expandTag hselected hkind rfl hbegun h
    exact htag
  | action =>
    rw [expandWith_of_action hexpanded hkind rfl]
    have htells : begun.Tells c.settings.maxDepth c.modifiers := by
      simp only [Node.Tells, begun, hkind]
      exact ⟨hblank.childRule, hblank.text⟩
    exact ((Gathered.of_blank hbegun).finished rfl htells).report _

theorem certifies_expandWithin (hselected : Certifies c selected) (steps : Nat) :
    Certifies c (expandWithin c selected steps) := by
  induction steps with
  | zero => exact certifies_exhaust
  | succ steps ih => exact certifies_expandWith ih hselected

/-- **Everything in the tree of an expansion that does not halt is certified.** -/
theorem certifies_expand (levels : Nat) : Certifies c (expand c levels) := by
  induction levels with
  | zero => exact fun node s => certifies_expandWithin certifies_exhaust _ node s
  | succ levels ih => exact fun node s => certifies_expandWithin ih _ node s

end Expansion

end TextGrammar
