import TextGrammar.Proofs.Expansion.Inside

/-!
# Where an outcome comes from

A node that was expanded keeps its depth and its kind; its children are what became of nodes that
it passed on; and if it halts, then at a tag of more than one clause or because a node that it
passed on has halted. `Origin` says this of an outcome, and `origin_expandWith` says that it holds
of whatever a node gives. What is true of whole trees and whole expansions follows from it along
the nodes that are passed on.
-/

namespace TextGrammar

namespace Registry

theorem foldl_apply (r : Registry) (n : Node) (references : List Text) :
    ∃ text problems, references.foldl r.apply n = { n with text, problems } := by
  induction references generalizing n with
  | nil => exact ⟨n.text, n.problems, by cases n; rfl⟩
  | cons reference references ih =>
    obtain ⟨text, problems, h⟩ := ih (r.apply n reference)
    refine ⟨text, problems, h.trans ?_⟩
    simp only [apply]
    cases r.find? (ModifierSpec.read reference).name <;> rfl

theorem applyAll_eq (r : Registry) (n : Node) :
    ∃ text problems, r.applyAll n = { n with text, problems } :=
  r.foldl_apply n n.modifiers

end Registry

namespace Expansion

variable {α : Type} {c : Context α} {nested selected : Expander α} {node x : Node} {s : State α}
  {o : Outcome α} {depth : Nat} {halt : Halt}

/-- What the children of a node and the rule they come from can become. -/
inductive Offspring (c : Context α) (nested selected : Expander α) (node : Node)
    (children : List Node) (childRule : Option Text) : Prop
  | same (hchildren : children = node.children) (hrule : childRule = node.childRule)
  | parts (hkind : node.kind = .unparsed)
      (hmade : ∀ n ∈ children, ∃ x, Inside c node x ∧ ∃ t, n = (nested x t).node)
  | selected (hkind : node.kind = .tag)
      (huncapped : c.settings.maxDepth.filter (· < node.depth) = none)
      (hmade : ∀ n ∈ children, ∃ x, Selectable c node x ∧ ∃ t, n = (selected x t).node)

/-- Why a node can halt. -/
inductive Cause (c : Context α) (nested selected : Expander α) (node : Node) (halt : Halt) : Prop
  | ambiguous (h : halt = .ambiguousTag node.raw)
  | inside (x : Node) (hx : Inside c node x) (t : State α) (h : (nested x t).halt = some halt)
  | selected (x : Node) (hx : Selectable c node x) (t : State α)
      (h : (selected x t).halt = some halt)

/-- An outcome that a node can have. -/
structure Origin (c : Context α) (nested selected : Expander α) (node : Node) (o : Outcome α) :
    Prop where
  depth : o.node.depth = node.depth
  kind : o.node.kind = node.kind
  offspring : Offspring c nested selected node o.node.children o.node.childRule
  halt : ∀ halt, o.halt = some halt → Cause c nested selected node halt

namespace Origin

theorem of_same (hdepth : o.node.depth = node.depth) (hkind : o.node.kind = node.kind)
    (hchildren : o.node.children = node.children) (hrule : o.node.childRule = node.childRule)
    (hhalt : ∀ halt, o.halt = some halt → Cause c nested selected node halt) :
    Origin c nested selected node o :=
  ⟨hdepth, hkind, .same hchildren hrule, hhalt⟩

/-- What is recorded in a node besides its text, its place and its children makes no
difference. -/
theorem of_eq {node' : Node} (h : Origin c nested selected node' o)
    (hraw : node'.raw = node.raw) (hkind : node'.kind = node.kind)
    (hdepth : node'.depth = node.depth) (hchildren : node'.children = node.children)
    (hrule : node'.childRule = node.childRule) : Origin c nested selected node o := by
  refine ⟨h.depth.trans hdepth, h.kind.trans hkind, ?_, fun halt hhalt => ?_⟩
  · cases h.offspring with
    | same hc hr => exact .same (hc.trans hchildren) (hr.trans hrule)
    | parts hk hmade =>
      refine .parts (hkind ▸ hk) fun n hn => ?_
      obtain ⟨x, hx, ht⟩ := hmade n hn
      exact ⟨x, hx.of_eq hraw hkind hdepth, ht⟩
    | selected hk huncapped hmade =>
      refine .selected (hkind ▸ hk) (hdepth ▸ huncapped) fun n hn => ?_
      obtain ⟨x, hx, ht⟩ := hmade n hn
      exact ⟨x, hx.of_eq hkind hdepth, ht⟩
  · cases h.halt halt hhalt with
    | ambiguous h => exact .ambiguous (hraw ▸ h)
    | inside x hx t h => exact .inside x (hx.of_eq hraw hkind hdepth) t h
    | selected x hx t h => exact .selected x (hx.of_eq hkind hdepth) t h

end Origin

/-! ### Actions -/

theorem halt_activate {scope : Scope} {action : Action}
    (h : (activate c nested scope depth action s).halt = some halt) :
    ∃ x ∈ actionNodes c depth action, ∃ t, (nested x t).halt = some halt := by
  cases action with
  | push target rules =>
    cases hs : (expandEach nested (alternatives c depth rules) s).2.2 with
    | some halt' =>
      rw [activate_push_of_halt hs] at h
      exact halt_expandEach (hs.trans h)
    | none =>
      rw [activate_push_of_done hs] at h
      cases h
  | pop target => cases h
  | evaluate rule => exact halt_expandEach h

theorem halt_activateEach {actions : List Action}
    (h : (activateEach c nested depth actions s).1.halt = some halt) :
    ∃ action ∈ actions, ∃ x ∈ actionNodes c depth action, ∃ t, (nested x t).halt = some halt := by
  induction actions generalizing s with
  | nil => cases h
  | cons action actions ih =>
    cases hs : (activate c nested .before depth action s).halt with
    | some halt' =>
      rw [activateEach_cons_of_halt hs] at h
      exact ⟨action, List.mem_cons_self, halt_activate (hs.trans h)⟩
    | none =>
      rw [activateEach_cons_of_done hs rfl] at h
      obtain ⟨action', haction, hx⟩ := ih h
      exact ⟨action', List.mem_cons_of_mem _ haction, hx⟩

/-! ### Tags -/

variable [Scalar α]

theorem origin_resolve (symbol : Text) (hkind : node.kind = .tag) :
    Origin c nested selected node (resolve c selected symbol node s) := by
  cases hcap : c.settings.maxDepth.filter (· < node.depth) with
  | some cap =>
    rw [resolve_of_capped hcap]
    exact .of_same rfl rfl rfl rfl nofun
  | none =>
    cases hrule : (s.select c symbol).1 with
    | none =>
      rw [resolve_of_unselected hcap hrule]
      obtain ⟨text, problems, h⟩ :=
        c.modifiers.applyAll_eq (node.report (s.select c symbol).2.1)
      rw [h]
      exact .of_same rfl rfl rfl rfl nofun
    | some rule =>
      have hmade : ∀ n ∈ (expandRule selected (node.report (s.select c symbol).2.1) rule
          (s.select c symbol).2.2).node.children,
          ∃ x, Selectable c node x ∧ ∃ t, n = (selected x t).node := by
        intro n hn
        obtain ⟨x, hx, ht⟩ := mem_expandEach hn
        exact ⟨x, ⟨hkind, hcap, rule, hx⟩, ht⟩
      cases hmain : (expandRule selected (node.report (s.select c symbol).2.1) rule
          (s.select c symbol).2.2).halt with
      | some halt =>
        rw [resolve_of_halt hcap hrule rfl hmain]
        refine ⟨rfl, rfl, .selected hkind hcap hmade, fun halt hhalt => ?_⟩
        obtain ⟨x, hx, t, ht⟩ := halt_expandEach hhalt
        exact .selected x ⟨hkind, hcap, rule, hx⟩ t ht
      | none =>
        rw [resolve_of_done hcap hrule rfl hmain]
        obtain ⟨text, problems, h⟩ := c.modifiers.applyAll_eq
          (expandRule selected (node.report (s.select c symbol).2.1) rule
            (s.select c symbol).2.2).node
        rw [h]
        exact ⟨rfl, rfl, .selected hkind hcap hmade, nofun⟩

theorem origin_expandTag (hkind : node.kind = .tag) :
    Origin c nested selected node (expandTag c nested selected node s) := by
  cases hread : Tag.read node.raw with
  | ambiguous =>
    rw [expandTag_of_ambiguous hread]
    exact .of_same rfl rfl rfl rfl fun halt h => .ambiguous (Option.some.inj h).symm
  | silent =>
    rw [expandTag_of_silent hread]
    exact .of_same rfl rfl rfl rfl nofun
  | clause clause =>
    rcases hrun : runActions c nested node.depth clause s with ⟨before, undos⟩
    cases hb : before.halt with
    | some halt' =>
      rw [expandTag_of_halt hread hrun hb]
      refine .of_same rfl rfl rfl rfl fun halt h => ?_
      have hactions : (runActions c nested node.depth clause s).1.halt = some halt := by
        rw [hrun]
        exact hb.trans h
      obtain ⟨action, haction, x, hx, t, ht⟩ := halt_activateEach hactions
      obtain ⟨p, hp, rfl⟩ := List.mem_map.1 haction
      exact .inside x (.preaction hkind hread hp hx) t ht
    | none =>
      rw [expandTag_of_done hread hrun hb]
      have hmain : Origin c nested selected node
          (resolve c selected clause.symbol ((enterClause node clause).report before.problems)
            before.state) :=
        Origin.of_eq (origin_resolve clause.symbol hkind) rfl rfl rfl rfl rfl
      -- what the tag pops in the end changes neither the children nor the halt
      exact ⟨hmain.depth, hmain.kind, hmain.offspring, hmain.halt⟩

/-- **Whatever a node gives comes from the nodes that it passes on.** -/
theorem origin_expandWith :
    Origin c nested selected node (expandWith c nested nested selected node s) := by
  cases hexp : node.expanded with
  | true =>
    rw [expandWith_of_expanded hexp]
    exact .of_same rfl rfl rfl rfl nofun
  | false =>
    cases hkind : node.kind with
    | unparsed =>
      rw [expandWith_of_unparsed hexp hkind]
      refine ⟨rfl, rfl, .parts hkind fun n hn => ?_, fun halt h => ?_⟩
      · obtain ⟨x, hx, ht⟩ := mem_expandEach hn
        exact ⟨x, .part hkind hx, ht⟩
      · obtain ⟨x, hx, t, ht⟩ := halt_expandEach h
        exact .inside x (.part hkind hx) t ht
    | plain =>
      rw [expandWith_of_plain hexp hkind]
      exact .of_same rfl rfl rfl rfl nofun
    | tag =>
      rw [expandWith_of_tag hexp hkind]
      exact Origin.of_eq (origin_expandTag hkind) rfl rfl rfl rfl rfl
    | action =>
      rw [expandWith_of_action hexp hkind rfl]
      refine .of_same rfl rfl rfl rfl fun halt h => ?_
      obtain ⟨x, hx, t, ht⟩ := halt_activate h
      exact .inside x (.action hkind hx) t ht

end Expansion

end TextGrammar
