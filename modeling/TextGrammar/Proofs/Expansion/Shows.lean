import TextGrammar.Proofs.Expansion.Regime
import TextGrammar.Proofs.Expansion.Resolve

/-!
# Problems from below

An outcome shows a problem if it is recorded or if the expansion has halted. Whatever is inside a
node is expanded, unless something halts before, and what it records is recorded for the node too:
a node shows all that a node inside it shows (`shows_of_inside`). A tag shows what looking its
symbol up shows (`shows_of_resolve`). In both cases it may be that other nodes are expanded before,
so what is below has to show the problem from every state that they may leave; here these are the
states of a regime.
-/

namespace TextGrammar.Expansion

variable {α : Type} {c : Context α} {K : Regime α} {go : Expander α} {node x : Node}
  {s : State α} {d : Diagnostic} {depth : Nat}

/-- The problem is recorded, unless the expansion has halted. -/
def Outcome.Shows (o : Outcome α) (d : Diagnostic) : Prop := o.halt = none → d ∈ o.node.problems

/-- The same of actions. -/
def Activation.Shows (a : Activation α) (d : Diagnostic) : Prop := a.halt = none → d ∈ a.problems

theorem Outcome.Shows.settle {o : Outcome α} (h : o.Shows d) (undos : List Text) :
    (o.settle undos).Shows d := fun hhalt => List.mem_append_left _ (h hhalt)

section Sequences

variable {I : State α → Prop}

theorem shows_expandEach {nodes : List Node} (hgo : ∀ x ∈ nodes, ∀ s, I s → I (go x s).state)
    (hx : x ∈ nodes) (h : ∀ t, I t → (go x t).Shows d) (hs : I s)
    (hdone : (expandEach go nodes s).2.2 = none) :
    d ∈ (expandEach go nodes s).1.flatMap (·.problems) := by
  induction nodes generalizing s with
  | nil => cases hx
  | cons node nodes ih =>
    cases hfirst : (go node s).halt with
    | some halt =>
      rw [expandEach_cons_of_halt hfirst] at hdone
      cases hdone
    | none =>
      rw [expandEach_cons_of_done hfirst] at hdone ⊢
      rw [List.flatMap_cons, List.mem_append]
      rcases List.mem_cons.1 hx with rfl | hx
      · exact .inl (h s hs hfirst)
      · exact .inr (ih (fun x hx => hgo x (List.mem_cons_of_mem _ hx)) hx
          (hgo node List.mem_cons_self s hs) hdone)

theorem shows_expandRule {rule : Text}
    (hgo : ∀ x ∈ Node.ofSections (node.depth + 1) (scan rule).sections, ∀ s, I s →
      I (go x s).state)
    (hx : x ∈ Node.ofSections (node.depth + 1) (scan rule).sections)
    (h : ∀ t, I t → (go x t).Shows d) (hs : I s) : (expandRule go node rule s).Shows d :=
  fun hdone =>
    List.mem_append_right _ (List.mem_append_right _ (shows_expandEach hgo hx h hs hdone))

theorem shows_activate {scope : Scope} {action : Action}
    (hgo : ∀ x ∈ actionNodes c depth action, ∀ s, I s → I (go x s).state)
    (hx : x ∈ actionNodes c depth action) (h : ∀ t, I t → (go x t).Shows d) (hs : I s) :
    (activate c go scope depth action s).Shows d := by
  intro hdone
  cases action with
  | pop target => cases hx
  | evaluate rule => exact shows_expandEach hgo hx h hs hdone
  | push target rules =>
    cases heach : (expandEach go (alternatives c depth rules) s).2.2 with
    | some halt =>
      rw [activate_push_of_halt heach] at hdone
      cases hdone
    | none =>
      rw [activate_push_of_done heach]
      exact shows_expandEach hgo hx h hs heach

theorem shows_activateEach {actions : List Action} {action : Action}
    (hstates : ∀ a ∈ actions, ∀ s, I s → I (activate c go .before depth a s).state)
    (hmem : action ∈ actions) (h : ∀ t, I t → (activate c go .before depth action t).Shows d)
    (hs : I s) : (activateEach c go depth actions s).1.Shows d := by
  induction actions generalizing s with
  | nil => cases hmem
  | cons a actions ih =>
    intro hdone
    cases hfirst : (activate c go .before depth a s).halt with
    | some halt =>
      rw [activateEach_cons_of_halt hfirst] at hdone
      cases hdone
    | none =>
      rw [activateEach_cons_of_done hfirst rfl] at hdone ⊢
      rw [List.mem_append]
      rcases List.mem_cons.1 hmem with rfl | hmem
      · exact .inl (h s hs hfirst)
      · exact .inr (ih (fun a ha => hstates a (List.mem_cons_of_mem _ ha)) hmem
          (hstates a List.mem_cons_self s hs) hdone)

end Sequences

/-! ### Tags -/

variable [Scalar α] {selected : Expander α} {clause : Tag.Clause}

theorem shows_resolve_of_selected {symbol rule : Text}
    (huncapped : c.settings.maxDepth.filter (· < node.depth) = none)
    (hrule : (s.select c symbol).1 = some rule)
    (h : (expandRule selected (node.report (s.select c symbol).2.1) rule
      (s.select c symbol).2.2).Shows d) :
    (resolve c selected symbol node s).Shows d := by
  cases hhalt : (expandRule selected (node.report (s.select c symbol).2.1) rule
      (s.select c symbol).2.2).halt with
  | some halt =>
    rw [resolve_of_halt huncapped hrule rfl hhalt]
    exact h
  | none =>
    rw [resolve_of_done huncapped hrule rfl hhalt]
    obtain ⟨found, hfound, -⟩ := c.modifiers.applyAll_frame (n := (expandRule selected
      (node.report (s.select c symbol).2.1) rule (s.select c symbol).2.2).node) rfl rfl
    exact fun _ => hfound ▸ List.mem_append_left _ (h hhalt)

/-- What the actions of a tag record is there before its symbol is looked up. -/
theorem shows_expandTag_of_actions (node : Node) (hread : Tag.read node.raw = .clause clause)
    (h : (runActions c go node.depth clause s).1.Shows d) :
    (expandTag c go selected node s).Shows d := by
  rcases hrun : runActions c go node.depth clause s with ⟨before, undos⟩
  rw [hrun] at h
  cases hb : before.halt with
  | some halt =>
    rw [expandTag_of_halt hread hrun hb]
    exact nofun
  | none =>
    rw [expandTag_of_done hread hrun hb]
    have hmem : d ∈ ((enterClause node clause).report before.problems).problems :=
      List.mem_append_right _ (h hb)
    have hmain : (resolve c selected clause.symbol
        ((enterClause node clause).report before.problems) before.state).Shows d :=
      fun _ => mem_problems_resolve hmem clause.symbol before.state
    exact hmain.settle undos

theorem shows_expandTag_of_resolve (node : Node) (hread : Tag.read node.raw = .clause clause)
    (h : ∀ n : Node, n.depth = node.depth → (resolve c selected clause.symbol n
      (runActions c go node.depth clause s).1.state).Shows d) :
    (expandTag c go selected node s).Shows d := by
  rcases hrun : runActions c go node.depth clause s with ⟨before, undos⟩
  rw [hrun] at h
  cases hb : before.halt with
  | some halt =>
    rw [expandTag_of_halt hread hrun hb]
    exact nofun
  | none =>
    rw [expandTag_of_done hread hrun hb]
    have hmain := h ((enterClause node clause).report before.problems) rfl
    exact hmain.settle undos

/-! ### Nodes -/

variable (hK : K.Holds c)
  (hgo : ∀ x, K.part x.part → ∀ s t, K.states s t → K.Meets x (go x s) (go x t))

include hK hgo

theorem states_activate (hpart : K.part node.part) {scope : Scope} {action : Action}
    (hact : Performs node scope action)
    (hin : ∀ x ∈ actionNodes c node.depth action, Inside c node x) (hs : K.states s s) :
    K.states (activate c go scope node.depth action s).state
      (activate c go scope node.depth action s).state :=
  (hK.activate hpart hact (fun x hx => hgo x (hK.inside hpart (hin x hx))) hs).states

theorem states_runActions (hpart : K.part node.part) (hkind : node.kind = .tag)
    (hread : Tag.read node.raw = .clause clause) (hs : K.states s s) :
    K.states (runActions c go node.depth clause s).1.state
      (runActions c go node.depth clause s).1.state := by
  have hact : ∀ action ∈ clause.preactions.map fun p => Action.read p.raw,
      Performs node .before action := by
    intro action haction
    obtain ⟨p, hp, rfl⟩ := List.mem_map.1 haction
    exact .before hkind hread hp
  have hin : ∀ action ∈ clause.preactions.map fun p => Action.read p.raw,
      ∀ x ∈ actionNodes c node.depth action, Inside c node x := by
    intro action haction x hx
    obtain ⟨p, hp, rfl⟩ := List.mem_map.1 haction
    exact .preaction hkind hread hp hx
  exact (hK.activateEach hpart hact
    (fun action haction x hx => hgo x (hK.inside hpart (hin action haction x hx)))
    (hK.enter hs clause.symbol)).1.states

/-- **A node shows what a node inside it shows.** -/
theorem shows_of_inside (hpart : K.part node.part) (hfresh : node.expanded = false)
    (hx : Inside c node x) (h : ∀ t, K.states t t → (go x t).Shows d) (hs : K.states s s) :
    (expandWith c go go go node s).Shows d := by
  have hinside : ∀ y, Inside c node y → ∀ t, K.states t t →
      K.states (go y t).state (go y t).state := fun y hy t ht =>
    (hgo y (hK.inside hpart hy) t t ht).states
  cases hx with
  | part hkind hx =>
    rw [expandWith_of_unparsed hfresh hkind]
    exact shows_expandRule (fun y hy => hinside y (.part hkind hy)) hx h hs
  | action hkind hx =>
    rw [expandWith_of_action hfresh hkind rfl]
    intro hdone
    have hmem := shows_activate (fun y hy => hinside y (.action hkind hy)) hx h hs hdone
    exact List.mem_append_right _ hmem
  | @preaction clause p hkind hread hp hx =>
    rw [expandWith_of_tag hfresh hkind]
    refine shows_expandTag_of_actions { node with expanded := true } hread ?_
    refine shows_activateEach (I := fun t => K.states t t) ?_ (List.mem_map_of_mem hp) ?_
      (hK.enter hs clause.symbol)
    · intro action haction t ht
      obtain ⟨q, hq, rfl⟩ := List.mem_map.1 haction
      exact states_activate hK hgo hpart (.before hkind hread hq)
        (fun y hy => .preaction hkind hread hq hy) ht
    · exact fun t ht =>
        shows_activate (fun y hy => hinside y (.preaction hkind hread hp hy)) hx h ht

/-- **A tag shows what looking its symbol up shows**, from any state that its actions may leave. -/
theorem shows_of_resolve (hpart : K.part node.part) (hfresh : node.expanded = false)
    (hkind : node.kind = .tag) (hread : Tag.read node.raw = .clause clause)
    (h : ∀ (n : Node) t, n.depth = node.depth → K.states t t →
      (resolve c go clause.symbol n t).Shows d) (hs : K.states s s) :
    (expandWith c go go go node s).Shows d := by
  rw [expandWith_of_tag hfresh hkind]
  refine shows_expandTag_of_resolve { node with expanded := true } hread fun n hdepth => ?_
  exact h n _ hdepth (states_runActions hK hgo hpart hkind hread hs)

end TextGrammar.Expansion
