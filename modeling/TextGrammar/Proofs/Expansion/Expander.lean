import TextGrammar.Expansion
import TextGrammar.Proofs.Markup.Parts

/-!
# One step of an expansion

Equations of the functions that expand nodes, one for each way they can go, and the nodes that
they pass on: the sections of a rule and the texts of an action are fresh nodes one level down.
-/

namespace TextGrammar

namespace Node

/-- A node that nothing has been done to yet. -/
structure Fresh (n : Node) : Prop where
  expanded : n.expanded = false
  text : n.text = []
  children : n.children = []
  problems : n.problems = []
  symbol : n.symbol = none
  modifiers : n.modifiers = []
  childRule : n.childRule = none

theorem fresh_nested (depth : Nat) (rule : Text) : (nested depth rule).Fresh :=
  ⟨rfl, rfl, rfl, rfl, rfl, rfl, rfl⟩

theorem of_mem_ofSections {depth : Nat} {sections : List Section} {n : Node}
    (h : n ∈ ofSections depth sections) :
    n.Fresh ∧ n.depth = depth ∧ ⟨n.kind, n.raw⟩ ∈ sections := by
  obtain ⟨i, hi, rfl⟩ := List.mem_mapIdx.1 h
  exact ⟨⟨rfl, rfl, rfl, rfl, rfl, rfl, rfl⟩, rfl, List.getElem_mem hi⟩

@[simp] theorem problems_report (n : Node) (ds : List Diagnostic) :
    (n.report ds).problems = n.problems ++ ds := rfl

@[simp] theorem depth_report (n : Node) (ds : List Diagnostic) :
    (n.report ds).depth = n.depth := rfl

theorem report_nil (n : Node) : n.report [] = n := by
  cases n
  rw [report, List.append_nil]

theorem problems_root {rule : Text} (h : rule ≠ []) : (root rule).problems = [] := by
  cases rule with
  | nil => exact absurd rfl h
  | cons c rest => rfl

end Node

theorem Registry.problems_apply (r : Registry) (n : Node) (reference : Text) :
    (r.apply n reference).problems = n.problems ∨
      (r.apply n reference).problems =
        n.problems ++ [.missingModifier (ModifierSpec.read reference).name] := by
  simp only [apply]
  cases r.find? (ModifierSpec.read reference).name with
  | some f => exact .inl rfl
  | none => exact .inr rfl

namespace Expansion

variable {α : Type} {go : Expander α} {node : Node} {s : State α}

/-! ### Nodes one after the other -/

theorem expandEach_cons_of_halt {nodes : List Node} {halt : Halt}
    (h : (go node s).halt = some halt) :
    expandEach go (node :: nodes) s = ([], (go node s).state, some halt) := by
  simp only [expandEach, h]

theorem expandEach_cons_of_done {nodes : List Node} (h : (go node s).halt = none) :
    expandEach go (node :: nodes) s =
      ((go node s).node :: (expandEach go nodes (go node s).state).1,
        (expandEach go nodes (go node s).state).2) := by
  simp only [expandEach, h]

theorem mem_expandEach {nodes : List Node} {n : Node} (h : n ∈ (expandEach go nodes s).1) :
    ∃ m ∈ nodes, ∃ t, n = (go m t).node := by
  induction nodes generalizing s with
  | nil => simp [expandEach] at h
  | cons m nodes ih =>
    cases hm : (go m s).halt with
    | some halt => simp [expandEach_cons_of_halt hm] at h
    | none =>
      rw [expandEach_cons_of_done hm] at h
      rcases List.mem_cons.1 h with rfl | h
      · exact ⟨m, List.mem_cons_self, s, rfl⟩
      · obtain ⟨m', hm', t, rfl⟩ := ih h
        exact ⟨m', List.mem_cons_of_mem _ hm', t, rfl⟩

theorem halt_expandEach {nodes : List Node} {halt : Halt}
    (h : (expandEach go nodes s).2.2 = some halt) :
    ∃ m ∈ nodes, ∃ t, (go m t).halt = some halt := by
  induction nodes generalizing s with
  | nil => simp [expandEach] at h
  | cons m nodes ih =>
    cases hm : (go m s).halt with
    | some halt' =>
      rw [expandEach_cons_of_halt hm] at h
      exact ⟨m, List.mem_cons_self, s, hm.trans h⟩
    | none =>
      rw [expandEach_cons_of_done hm] at h
      obtain ⟨m', hm', t, ht⟩ := ih h
      exact ⟨m', List.mem_cons_of_mem _ hm', t, ht⟩

/-! ### Actions -/

/-- The nodes for the alternatives of a push by a node at the given depth. -/
def alternatives (c : Context α) (depth : Nat) (rules : Text) : List Node :=
  (Alternatives.split c.settings.separator rules).map (Node.nested depth)

variable {c : Context α} {nested : Expander α} {scope : Scope} {depth : Nat}

theorem fresh_of_mem_alternatives {rules : Text} {n : Node} (h : n ∈ alternatives c depth rules) :
    n.Fresh := by
  obtain ⟨part, -, rfl⟩ := List.mem_map.1 h
  exact Node.fresh_nested depth part

theorem activate_push_of_halt {target rules : Text} {halt : Halt}
    (h : (expandEach nested (alternatives c depth rules) s).2.2 = some halt) :
    activate c nested scope depth (.push target rules) s =
      { problems := (expandEach nested (alternatives c depth rules) s).1.flatMap (·.problems)
        state := (expandEach nested (alternatives c depth rules) s).2.1
        halt := some halt } := by
  unfold alternatives at h ⊢
  simp only [activate, h]

theorem activate_push_of_done {target rules : Text}
    (h : (expandEach nested (alternatives c depth rules) s).2.2 = none) :
    activate c nested scope depth (.push target rules) s =
      { problems := (expandEach nested (alternatives c depth rules) s).1.flatMap (·.problems)
        state := (expandEach nested (alternatives c depth rules) s).2.1.push scope target
          ((expandEach nested (alternatives c depth rules) s).1.map (·.text)) } := by
  unfold alternatives at h ⊢
  simp only [activate, h]

theorem activate_pop (target : Text) :
    activate c nested scope depth (.pop target) s =
      { problems := (s.pop scope target).1, state := (s.pop scope target).2 } := rfl

theorem activate_evaluate (rule : Text) :
    activate c nested scope depth (.evaluate rule) s =
      { problems := (expandEach nested [Node.nested depth rule] s).1.flatMap (·.problems)
        state := (expandEach nested [Node.nested depth rule] s).2.1
        halt := (expandEach nested [Node.nested depth rule] s).2.2 } := rfl

theorem activateEach_cons_of_halt {action : Action} {actions : List Action} {halt : Halt}
    (h : (activate c nested .before depth action s).halt = some halt) :
    activateEach c nested depth (action :: actions) s =
      ({ problems := (activate c nested .before depth action s).problems
         state := (activate c nested .before depth action s).state
         halt := some halt }, []) := by
  simp only [activateEach, h]

theorem activateEach_cons_of_done {action : Action} {actions : List Action} {t : State α}
    (h : (activate c nested .before depth action s).halt = none)
    (ht : (activate c nested .before depth action s).state = t) :
    activateEach c nested depth (action :: actions) s =
      ({ problems := (activate c nested .before depth action s).problems ++
           (activateEach c nested depth actions t).1.problems
         state := (activateEach c nested depth actions t).1.state
         halt := (activateEach c nested depth actions t).1.halt },
        (action.undo?.map (·.target)).toList ++ (activateEach c nested depth actions t).2) := by
  simp only [activateEach, h, ht]

theorem activateEach_snd_of_done {actions : List Action}
    (h : (activateEach c nested depth actions s).1.halt = none) :
    (activateEach c nested depth actions s).2 =
      actions.flatMap fun action => (action.undo?.map (·.target)).toList := by
  induction actions generalizing s with
  | nil => rfl
  | cons action actions ih =>
    cases hs : (activate c nested .before depth action s).halt with
    | some halt =>
      rw [activateEach_cons_of_halt hs] at h
      cases h
    | none =>
      rw [activateEach_cons_of_done hs rfl] at h ⊢
      rw [List.flatMap_cons, ih h]

/-! ### Tags -/

theorem uncapped_of_depth_le (h : ∀ cap, c.settings.maxDepth = some cap → depth ≤ cap) :
    c.settings.maxDepth.filter (· < depth) = none := by
  refine Option.filter_eq_none_iff.2 fun cap hcap => ?_
  simpa using h cap hcap

variable [Scalar α] {selected : Expander α}

theorem resolve_of_capped {symbol : Text} {cap : Nat}
    (h : c.settings.maxDepth.filter (· < node.depth) = some cap) :
    resolve c selected symbol node s =
      { node := { node with text := Text.placeholder symbol }.report [.depthExceeded symbol cap]
        state := s } := by
  simp only [resolve, h]

theorem resolve_of_unselected {symbol : Text}
    (h : c.settings.maxDepth.filter (· < node.depth) = none)
    (hrule : (s.select c symbol).1 = none) :
    resolve c selected symbol node s =
      { node := c.modifiers.applyAll (node.report (s.select c symbol).2.1)
        state := (s.select c symbol).2.2 } := by
  simp only [resolve, h, hrule]

theorem resolve_of_halt {symbol rule : Text} {main : Outcome α} {halt : Halt}
    (h : c.settings.maxDepth.filter (· < node.depth) = none)
    (hrule : (s.select c symbol).1 = some rule)
    (hmain : expandRule selected (node.report (s.select c symbol).2.1) rule
      (s.select c symbol).2.2 = main) (hhalt : main.halt = some halt) :
    resolve c selected symbol node s = main := by
  subst hmain
  simp only [resolve, h, hrule, hhalt]
  rw [← hhalt]

theorem resolve_of_done {symbol rule : Text} {main : Outcome α}
    (h : c.settings.maxDepth.filter (· < node.depth) = none)
    (hrule : (s.select c symbol).1 = some rule)
    (hmain : expandRule selected (node.report (s.select c symbol).2.1) rule
      (s.select c symbol).2.2 = main) (hhalt : main.halt = none) :
    resolve c selected symbol node s =
      { node := c.modifiers.applyAll main.node, state := main.state } := by
  subst hmain
  simp only [resolve, h, hrule, hhalt]

/-- The tag node once its text is taken apart. -/
def enterClause (node : Node) (clause : Tag.Clause) : Node :=
  { node with symbol := some clause.symbol, modifiers := clause.modifiers }.report clause.problems

@[simp] theorem problems_enterClause (clause : Tag.Clause) :
    (enterClause node clause).problems = node.problems ++ clause.problems := rfl

/-- What the actions of a clause do, and the symbols to pop afterwards. -/
def runActions (c : Context α) (nested : Expander α) (depth : Nat) (clause : Tag.Clause)
    (s : State α) : Activation α × List Text :=
  activateEach c nested depth (clause.preactions.map fun p => Action.read p.raw)
    (s.enter clause.symbol)

/-- The end of a tag: what is left to be popped is popped. -/
def Outcome.settle (o : Outcome α) (undos : List Text) : Outcome α :=
  { node := o.node.report (o.state.popAll .undo undos).1
    state := (o.state.popAll .undo undos).2
    halt := o.halt }

omit [Scalar α] in
theorem Outcome.settle_nil (o : Outcome α) : o.settle [] = o := by
  simp only [settle, State.popAll, o.node.report_nil]

theorem expandTag_of_ambiguous (h : Tag.read node.raw = .ambiguous) :
    expandTag c nested selected node s =
      { node, state := s, halt := some (.ambiguousTag node.raw) } := by
  simp only [expandTag, h]

theorem expandTag_of_silent (h : Tag.read node.raw = .silent) :
    expandTag c nested selected node s = { node, state := s } := by
  simp only [expandTag, h]

theorem expandTag_of_halt {clause : Tag.Clause} {before : Activation α} {undos : List Text}
    {halt : Halt} (h : Tag.read node.raw = .clause clause)
    (hrun : runActions c nested node.depth clause s = (before, undos))
    (hhalt : before.halt = some halt) :
    expandTag c nested selected node s =
      Outcome.settle
        { node := (enterClause node clause).report before.problems
          state := before.state
          halt := some halt } undos := by
  unfold runActions at hrun
  simp only [expandTag, h, Node.depth_report, hrun, hhalt]
  rfl

theorem expandTag_of_done {clause : Tag.Clause} {before : Activation α} {undos : List Text}
    (h : Tag.read node.raw = .clause clause)
    (hrun : runActions c nested node.depth clause s = (before, undos))
    (hhalt : before.halt = none) :
    expandTag c nested selected node s =
      (resolve c selected clause.symbol ((enterClause node clause).report before.problems)
        before.state).settle undos := by
  unfold runActions at hrun
  simp only [expandTag, h, Node.depth_report, hrun, hhalt]
  rfl

/-! ### Nodes -/

variable {sections : Expander α}

theorem expandWith_of_expanded (h : node.expanded = true) :
    expandWith c nested sections selected node s = { node, state := s } := by
  simp only [expandWith, h, if_true]

theorem expandWith_of_unparsed (h : node.expanded = false) (hkind : node.kind = .unparsed) :
    expandWith c nested sections selected node s =
      expandRule sections { node with expanded := true } node.raw s := by
  simp only [expandWith, h, hkind, Bool.false_eq_true, if_false]

theorem expandWith_of_plain (h : node.expanded = false) (hkind : node.kind = .plain) :
    expandWith c nested sections selected node s =
      { node := { node with expanded := true, text := node.raw }, state := s } := by
  simp only [expandWith, h, hkind, Bool.false_eq_true, if_false]

theorem expandWith_of_tag (h : node.expanded = false) (hkind : node.kind = .tag) :
    expandWith c nested sections selected node s =
      expandTag c nested selected { node with expanded := true } s := by
  simp only [expandWith, h, hkind, Bool.false_eq_true, if_false]

theorem expandWith_of_action {done : Activation α} (h : node.expanded = false)
    (hkind : node.kind = .action)
    (hdone : activate c nested .bare node.depth (Action.read node.raw) s = done) :
    expandWith c nested sections selected node s =
      { node := { node with expanded := true }.report done.problems
        state := done.state
        halt := done.halt } := by
  subst hdone
  simp only [expandWith, h, hkind, Bool.false_eq_true, if_false]

end Expansion

end TextGrammar
