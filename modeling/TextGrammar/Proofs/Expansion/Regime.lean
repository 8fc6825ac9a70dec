import TextGrammar.Proofs.Expansion.Inside

/-!
# Expansions under a regime

A regime says which parts of rules may come up in an expansion, how two states are related while it
goes on from both, and what it may record and halt for. `Regime.Holds` are the laws of a single
step: what a part of the regime passes on is a part of it, the two states give the same answers,
and everything done to both keeps them related. Then two expansions of a part give the same tree,
halt for the same reason and leave related states behind, and the regime allows all that they
record (`Regime.Holds.expand`).

The laws about pushes and selections speak of parts of the regime only. So a regime may rule out
pushes altogether, or a symbol that is never looked up. With one state twice, related by what is
known of it, a regime is an invariant of expansions.

What is said of a node is said for expanders that meet the regime at the nodes it passes on
(`Regime.Holds.expandWith`).
-/

namespace TextGrammar

/-- What a node stands for, as a section. -/
def Node.part (n : Node) : Section := ⟨n.kind, n.raw⟩

namespace Expansion

variable {α : Type}

/-- The actions that a node runs, with their scope. -/
inductive Performs (node : Node) : Scope → Action → Prop
  | bare (hkind : node.kind = .action) : Performs node .bare (Action.read node.raw)
  | before {clause : Tag.Clause} {p : Section} (hkind : node.kind = .tag)
    (hread : Tag.read node.raw = .clause clause) (hp : p ∈ clause.preactions) :
    Performs node .before (Action.read p.raw)

/-- What expansions from two states have to keep to. -/
structure Regime (α : Type) where
  /-- The parts of rules that may come up. -/
  part : Section → Prop
  /-- How the two states are related. -/
  states : State α → State α → Prop
  /-- What may be recorded. -/
  problem : Diagnostic → Prop
  /-- What an expansion may halt for. -/
  halt : Halt → Prop

namespace Regime

variable (K : Regime α)

/-- Two outcomes of a node that agree, and what is new in them is allowed. -/
structure Meets (node : Node) (o o' : Outcome α) : Prop where
  node_eq : o.node = o'.node
  halt_eq : o.halt = o'.halt
  states : K.states o.state o'.state
  problem : ∀ d ∈ o.node.problems, d ∈ node.problems ∨ K.problem d
  allowed : ∀ halt, o.halt = some halt → K.halt halt

/-- The same of what nodes that are expanded in order give. -/
structure MeetsEach (nodes : List Node) (r r' : List Node × State α × Option Halt) : Prop where
  nodes_eq : r.1 = r'.1
  halt_eq : r.2.2 = r'.2.2
  states : K.states r.2.1 r'.2.1
  problem : ∀ n ∈ r.1, ∀ d ∈ n.problems, (∃ x ∈ nodes, d ∈ x.problems) ∨ K.problem d
  allowed : ∀ halt, r.2.2 = some halt → K.halt halt

/-- The same of an action that was run. -/
structure MeetsActivated (a a' : Activation α) : Prop where
  problems_eq : a.problems = a'.problems
  halt_eq : a.halt = a'.halt
  states : K.states a.state a'.state
  problem : ∀ d ∈ a.problems, K.problem d
  allowed : ∀ halt, a.halt = some halt → K.halt halt

variable {K} {go go' : Expander α} {node : Node} {s t : State α}

theorem meets_expandEach {nodes : List Node}
    (hgo : ∀ x ∈ nodes, ∀ s t, K.states s t → K.Meets x (go x s) (go' x t)) (h : K.states s t) :
    K.MeetsEach nodes (expandEach go nodes s) (expandEach go' nodes t) := by
  induction nodes generalizing s t with
  | nil =>
    refine ⟨rfl, rfl, h, fun n hn => absurd hn List.not_mem_nil, fun halt hhalt => ?_⟩
    cases hhalt
  | cons node nodes ih =>
    obtain ⟨hnode, hhalt, hstates, hproblem, hallowed⟩ := hgo node List.mem_cons_self s t h
    cases hs : (go node s).halt with
    | some halt =>
      rw [expandEach_cons_of_halt hs, expandEach_cons_of_halt (hhalt ▸ hs)]
      refine ⟨rfl, rfl, hstates, fun n hn => absurd hn List.not_mem_nil, fun halt' h => ?_⟩
      cases h
      exact hallowed halt hs
    | none =>
      rw [expandEach_cons_of_done hs, expandEach_cons_of_done (hhalt ▸ hs), hnode]
      have hrest := ih (fun x hx => hgo x (List.mem_cons_of_mem _ hx)) hstates
      refine ⟨by rw [hrest.nodes_eq], hrest.halt_eq, hrest.states, fun n hn d hd => ?_,
        hrest.allowed⟩
      rcases List.mem_cons.1 hn with rfl | hn
      · rw [← hnode] at hd
        exact (hproblem d hd).imp_left fun hd => ⟨node, List.mem_cons_self, hd⟩
      · refine (hrest.problem n hn d hd).imp_left fun ⟨x, hx, hd⟩ => ?_
        exact ⟨x, List.mem_cons_of_mem _ hx, hd⟩

theorem MeetsEach.problem_of_fresh {nodes : List Node} {r r' : List Node × State α × Option Halt}
    (h : K.MeetsEach nodes r r') (hfresh : ∀ x ∈ nodes, x.Fresh) :
    ∀ d ∈ r.1.flatMap (·.problems), K.problem d := by
  intro d hd
  obtain ⟨n, hn, hd⟩ := List.mem_flatMap.1 hd
  refine (h.problem n hn d hd).resolve_left fun ⟨x, hx, hd⟩ => ?_
  rw [(hfresh x hx).problems] at hd
  cases hd

theorem meets_expandRule (node : Node) (rule : Text)
    (hgo : ∀ x ∈ Node.ofSections (node.depth + 1) (scan rule).sections, ∀ s t, K.states s t →
      K.Meets x (go x s) (go' x t))
    (hscan : ∀ d ∈ (scan rule).problems, K.problem d) (h : K.states s t) :
    K.Meets node (expandRule go node rule s) (expandRule go' node rule t) := by
  have heach := meets_expandEach hgo h
  refine ⟨by simp only [expandRule, heach.nodes_eq], heach.halt_eq, heach.states, fun d hd => ?_,
    heach.allowed⟩
  simp only [expandRule, List.mem_append] at hd
  rcases hd with hd | hd | hd
  · exact .inl hd
  · exact .inr (hscan d hd)
  · exact .inr (heach.problem_of_fresh (fun x hx => (Node.of_mem_ofSections hx).1) d hd)

end Regime

/-! ### The laws -/

variable [Scalar α]

/-- What single steps have to do for expansions to keep to a regime. -/
structure Regime.Holds (K : Regime α) (c : Context α) : Prop where
  inside : ∀ {node x : Node}, K.part node.part → Inside c node x → K.part x.part
  scanned : ∀ {raw}, K.part ⟨.unparsed, raw⟩ → ∀ d ∈ (scan raw).problems, K.problem d
  ambiguous : ∀ {raw}, K.part ⟨.tag, raw⟩ → Tag.read raw = .ambiguous → K.halt (.ambiguousTag raw)
  clause : ∀ {raw clause}, K.part ⟨.tag, raw⟩ → Tag.read raw = .clause clause →
    ∀ d ∈ clause.problems, K.problem d
  exhausted : K.halt .exhausted
  capped : ∀ symbol cap, K.problem (.depthExceeded symbol cap)
  unregistered : ∀ name, K.problem (.missingModifier name)
  enter : ∀ {s t}, K.states s t → ∀ symbol, K.states (s.enter symbol) (t.enter symbol)
  push : ∀ {node : Node} {scope target rules}, K.part node.part →
    Performs node scope (.push target rules) → ∀ {s t}, K.states s t → ∀ texts,
      K.states (s.push scope target texts) (t.push scope target texts)
  pop : ∀ {s t}, K.states s t → ∀ scope name, K.states (s.pop scope name).2 (t.pop scope name).2
  pop_problems : ∀ {s t}, K.states s t → ∀ scope name,
    (s.pop scope name).1 = (t.pop scope name).1 ∧ ∀ d ∈ (s.pop scope name).1, K.problem d
  select : ∀ {raw clause}, K.part ⟨.tag, raw⟩ → Tag.read raw = .clause clause → ∀ {s t},
    K.states s t → K.states (s.select c clause.symbol).2.2 (t.select c clause.symbol).2.2
  select_problems : ∀ {raw clause}, K.part ⟨.tag, raw⟩ → Tag.read raw = .clause clause →
    ∀ {s t}, K.states s t →
      (s.select c clause.symbol).2.1 = (t.select c clause.symbol).2.1 ∧
        ∀ d ∈ (s.select c clause.symbol).2.1, K.problem d
  select_rule : ∀ {raw clause}, K.part ⟨.tag, raw⟩ → Tag.read raw = .clause clause → ∀ {s t},
    K.states s t →
      (s.select c clause.symbol).1 = (t.select c clause.symbol).1 ∧
        ∀ rule, (s.select c clause.symbol).1 = some rule → K.part ⟨.unparsed, rule⟩

namespace Regime.Holds

variable {K : Regime α} {c : Context α} {nested nested' selected selected' : Expander α}
  {node : Node} {s t : State α}

theorem part_of_mem_ofSections (hK : K.Holds c) {rule : Text} (h : K.part ⟨.unparsed, rule⟩)
    {depth : Nat} {x : Node} (hx : x ∈ Node.ofSections (depth + 1) (scan rule).sections) :
    K.part x.part := by
  let root : Node := { raw := rule, kind := .unparsed, depth, index := 0 }
  have hroot : K.part root.part := h
  exact hK.inside hroot (.part rfl hx)

/-! ### Actions -/

theorem activate (hK : K.Holds c) {scope : Scope} {depth : Nat} {action : Action}
    (hnode : K.part node.part) (hact : Performs node scope action)
    (hgo : ∀ x ∈ actionNodes c depth action, ∀ s t, K.states s t →
      K.Meets x (nested x s) (nested' x t)) (h : K.states s t) :
    K.MeetsActivated (Expansion.activate c nested scope depth action s)
      (Expansion.activate c nested' scope depth action t) := by
  have hfresh : ∀ x ∈ actionNodes c depth action, x.Fresh := by
    intro x hx
    obtain ⟨text, rfl, -⟩ := of_mem_actionNodes hx
    exact Node.fresh_nested depth text
  have heach := meets_expandEach hgo h
  have hproblem := heach.problem_of_fresh hfresh
  cases action with
  | push target rules =>
    obtain ⟨hnodes, hhalt, hstates, -, hallowed⟩ := heach
    simp only [actionNodes] at hnodes hhalt hstates hallowed hproblem
    cases hs : (expandEach nested (alternatives c depth rules) s).2.2 with
    | some halt =>
      rw [activate_push_of_halt hs, activate_push_of_halt (hhalt ▸ hs), hnodes]
      refine ⟨rfl, rfl, hstates, hnodes ▸ hproblem, fun halt' h => ?_⟩
      cases h
      exact hallowed halt hs
    | none =>
      rw [activate_push_of_done hs, activate_push_of_done (hhalt ▸ hs), hnodes]
      refine ⟨rfl, rfl, hK.push hnode hact hstates _, hnodes ▸ hproblem, fun halt h => ?_⟩
      cases h
  | pop target =>
    obtain ⟨hproblems, hproblem⟩ := hK.pop_problems h scope target
    refine ⟨hproblems, rfl, hK.pop h scope target, hproblem, fun halt hhalt => ?_⟩
    cases hhalt
  | evaluate rule =>
    obtain ⟨hnodes, hhalt, hstates, -, hallowed⟩ := heach
    simp only [actionNodes] at hnodes hhalt hstates hallowed hproblem
    rw [activate_evaluate, activate_evaluate, hnodes]
    exact ⟨rfl, hhalt, hstates, hnodes ▸ hproblem, hallowed⟩

theorem activateEach (hK : K.Holds c) {depth : Nat} {actions : List Action}
    (hnode : K.part node.part) (hact : ∀ action ∈ actions, Performs node .before action)
    (hgo : ∀ action ∈ actions, ∀ x ∈ actionNodes c depth action, ∀ s t, K.states s t →
      K.Meets x (nested x s) (nested' x t)) (h : K.states s t) :
    K.MeetsActivated (Expansion.activateEach c nested depth actions s).1
        (Expansion.activateEach c nested' depth actions t).1 ∧
      (Expansion.activateEach c nested depth actions s).2 =
        (Expansion.activateEach c nested' depth actions t).2 := by
  induction actions generalizing s t with
  | nil => exact ⟨⟨rfl, rfl, h, nofun, nofun⟩, rfl⟩
  | cons action actions ih =>
    obtain ⟨hproblems, hhalt, hstates, hproblem, hallowed⟩ :=
      hK.activate hnode (hact action List.mem_cons_self) (hgo action List.mem_cons_self) h
    cases hs : (Expansion.activate c nested .before depth action s).halt with
    | some halt =>
      rw [activateEach_cons_of_halt hs, activateEach_cons_of_halt (hhalt ▸ hs)]
      refine ⟨⟨hproblems, rfl, hstates, hproblem, fun halt' h => ?_⟩, rfl⟩
      cases h
      exact hallowed halt hs
    | none =>
      rw [activateEach_cons_of_done hs rfl, activateEach_cons_of_done (hhalt ▸ hs) rfl]
      -- the states after the first action are related again
      obtain ⟨hrest, hundos⟩ := ih (fun a ha => hact a (List.mem_cons_of_mem _ ha))
        (fun a ha => hgo a (List.mem_cons_of_mem _ ha)) hstates
      refine ⟨⟨by rw [hproblems, hrest.problems_eq], hrest.halt_eq, hrest.states, fun d hd => ?_,
        hrest.allowed⟩, by rw [hundos]⟩
      exact (List.mem_append.1 hd).elim (hproblem d) (hrest.problem d)

theorem popAll (hK : K.Holds c) (scope : Scope) (names : List Text) (h : K.states s t) :
    (s.popAll scope names).1 = (t.popAll scope names).1 ∧
      (∀ d ∈ (s.popAll scope names).1, K.problem d) ∧
      K.states (s.popAll scope names).2 (t.popAll scope names).2 := by
  induction names generalizing s t with
  | nil => exact ⟨rfl, nofun, h⟩
  | cons name names ih =>
    obtain ⟨hfirst, hfirstProblem⟩ := hK.pop_problems h scope name
    obtain ⟨hproblems, hproblem, hstates⟩ := ih (hK.pop h scope name)
    simp only [State.popAll]
    refine ⟨by rw [hfirst, hproblems], fun d hd => ?_, hstates⟩
    exact (List.mem_append.1 hd).elim (hfirstProblem d) (hproblem d)

/-! ### Tags -/

theorem settle (hK : K.Holds c) {o o' : Outcome α} (h : K.Meets node o o') (undos : List Text) :
    K.Meets node (o.settle undos) (o'.settle undos) := by
  obtain ⟨hnode, hhalt, hstates, hproblem, hallowed⟩ := h
  obtain ⟨hproblems, hpopped, hstates⟩ := hK.popAll .undo undos hstates
  refine ⟨by simp only [Outcome.settle, hnode, hproblems], hhalt, hstates, fun d hd => ?_,
    hallowed⟩
  exact (List.mem_append.1 hd).elim (hproblem d) fun hd => .inr (hpopped d hd)

theorem problem_applyAll (hK : K.Holds c) (r : Registry) (n : Node) :
    ∀ d ∈ (r.applyAll n).problems, d ∈ n.problems ∨ K.problem d := by
  unfold Registry.applyAll
  generalize n.modifiers = references
  induction references generalizing n with
  | nil => exact fun d hd => .inl hd
  | cons reference references ih =>
    intro d hd
    refine (ih (r.apply n reference) d hd).elim (fun hd => ?_) .inr
    rcases r.problems_apply n reference with h | h
    · exact .inl (h ▸ hd)
    · rw [h, List.mem_append, List.mem_singleton] at hd
      exact hd.imp_right fun (hd : d = _) => hd ▸ hK.unregistered _

theorem resolve (hK : K.Holds c) (node : Node) {raw : Text} {clause : Tag.Clause}
    (hpart : K.part ⟨.tag, raw⟩) (hread : Tag.read raw = .clause clause)
    (hsel : c.settings.maxDepth.filter (· < node.depth) = none → ∀ rule,
      ∀ x ∈ Node.ofSections (node.depth + 1) (scan rule).sections, K.part x.part →
        ∀ s t, K.states s t → K.Meets x (selected x s) (selected' x t)) (h : K.states s t) :
    K.Meets node (Expansion.resolve c selected clause.symbol node s)
      (Expansion.resolve c selected' clause.symbol node t) := by
  cases hcap : c.settings.maxDepth.filter (· < node.depth) with
  | some cap =>
    rw [resolve_of_capped hcap, resolve_of_capped hcap]
    refine ⟨rfl, rfl, h, fun d hd => ?_, nofun⟩
    rw [Node.problems_report, List.mem_append, List.mem_singleton] at hd
    exact hd.imp_right fun (hd : d = _) => hd ▸ hK.capped _ _
  | none =>
    obtain ⟨hrule, hselected⟩ := hK.select_rule hpart hread h
    obtain ⟨hproblems, hproblem⟩ := hK.select_problems hpart hread h
    have hstates := hK.select hpart hread h
    have hreport : ∀ d ∈ (node.report (s.select c clause.symbol).2.1).problems,
        d ∈ node.problems ∨ K.problem d := fun d hd =>
      (List.mem_append.1 hd).imp_right (hproblem d)
    cases hs : (s.select c clause.symbol).1 with
    | none =>
      rw [resolve_of_unselected hcap hs, resolve_of_unselected hcap (hrule ▸ hs), hproblems]
      refine ⟨rfl, rfl, hstates, fun d hd => ?_, nofun⟩
      rw [← hproblems] at hd
      exact (hK.problem_applyAll _ _ d hd).elim (hreport d) .inr
    | some rule =>
      -- the same rule is selected on both sides, and the same problems are reported
      have hpart' := hselected rule hs
      have hmain := meets_expandRule (node.report (s.select c clause.symbol).2.1) rule
        (fun x hx => hsel hcap rule x hx (hK.part_of_mem_ofSections hpart' hx))
        (hK.scanned hpart') hstates
      have hsame : expandRule selected' (node.report (t.select c clause.symbol).2.1) rule
          (t.select c clause.symbol).2.2 =
        expandRule selected' (node.report (s.select c clause.symbol).2.1) rule
          (t.select c clause.symbol).2.2 := by rw [hproblems]
      have hnew := fun d hd => (hmain.problem d hd).elim (hreport d) .inr
      cases hend : (expandRule selected (node.report (s.select c clause.symbol).2.1) rule
          (s.select c clause.symbol).2.2).halt with
      | some halt =>
        rw [resolve_of_halt hcap hs rfl hend,
          resolve_of_halt hcap (hrule ▸ hs) hsame (hmain.halt_eq ▸ hend)]
        exact ⟨hmain.node_eq, hmain.halt_eq, hmain.states, hnew, hmain.allowed⟩
      | none =>
        rw [resolve_of_done hcap hs rfl hend,
          resolve_of_done hcap (hrule ▸ hs) hsame (hmain.halt_eq ▸ hend), hmain.node_eq]
        refine ⟨rfl, rfl, hmain.states, fun d hd => ?_, nofun⟩
        rw [← hmain.node_eq] at hd
        exact (hK.problem_applyAll _ _ d hd).elim (hnew d) .inr

theorem expandTag (hK : K.Holds c) (node : Node) (hkind : node.kind = .tag)
    (hpart : K.part node.part)
    (hin : ∀ x, Inside c node x → ∀ s t, K.states s t → K.Meets x (nested x s) (nested' x t))
    (hsel : ∀ x, Selectable c node x → K.part x.part → ∀ s t, K.states s t →
      K.Meets x (selected x s) (selected' x t)) (h : K.states s t) :
    K.Meets node (Expansion.expandTag c nested selected node s)
      (Expansion.expandTag c nested' selected' node t) := by
  have htag : K.part ⟨.tag, node.raw⟩ := hkind ▸ hpart
  cases hread : Tag.read node.raw with
  | ambiguous =>
    rw [expandTag_of_ambiguous hread, expandTag_of_ambiguous hread]
    refine ⟨rfl, rfl, h, fun d hd => .inl hd, fun halt h => ?_⟩
    cases h
    exact hK.ambiguous htag hread
  | silent =>
    rw [expandTag_of_silent hread, expandTag_of_silent hread]
    exact ⟨rfl, rfl, h, fun d hd => .inl hd, nofun⟩
  | clause clause =>
    obtain ⟨⟨hproblems, hhalt, hstates, hproblem, hallowed⟩, hundos⟩ :
        K.MeetsActivated (runActions c nested node.depth clause s).1
          (runActions c nested' node.depth clause t).1 ∧
        (runActions c nested node.depth clause s).2 =
          (runActions c nested' node.depth clause t).2 := by
      refine hK.activateEach hpart (fun action haction => ?_) (fun action haction x hx => ?_)
        (hK.enter h clause.symbol)
      · obtain ⟨p, hp, rfl⟩ := List.mem_map.1 haction
        exact .before hkind hread hp
      · obtain ⟨p, hp, rfl⟩ := List.mem_map.1 haction
        exact hin x (.preaction hkind hread hp hx)
    rcases hrun : runActions c nested node.depth clause s with ⟨before, undos⟩
    rcases hrun' : runActions c nested' node.depth clause t with ⟨before', undos'⟩
    rw [hrun, hrun'] at hproblems hhalt hstates hundos
    rw [hrun] at hproblem hallowed
    simp only at hproblems hhalt hstates hundos hproblem hallowed
    have hnew : ∀ d ∈ ((enterClause node clause).report before.problems).problems,
        d ∈ node.problems ∨ K.problem d := by
      intro d hd
      rw [Node.problems_report, problems_enterClause, List.mem_append, List.mem_append] at hd
      rcases hd with (hd | hd) | hd
      · exact .inl hd
      · exact .inr (hK.clause htag hread d hd)
      · exact .inr (hproblem d hd)
    cases hb : before.halt with
    | some halt =>
      rw [expandTag_of_halt hread hrun hb, expandTag_of_halt hread hrun' (hhalt ▸ hb),
        ← hproblems, ← hundos]
      have hmain : K.Meets node
          { node := (enterClause node clause).report before.problems
            state := before.state
            halt := some halt }
          { node := (enterClause node clause).report before.problems
            state := before'.state
            halt := some halt } := by
        refine ⟨rfl, rfl, hstates, hnew, fun halt' h => ?_⟩
        cases h
        exact hallowed halt hb
      exact hK.settle hmain undos
    | none =>
      rw [expandTag_of_done hread hrun hb, expandTag_of_done hread hrun' (hhalt ▸ hb),
        ← hproblems, ← hundos]
      have hmain := hK.resolve ((enterClause node clause).report before.problems) htag hread
        (fun hcap rule x hx => hsel x ⟨hkind, hcap, rule, hx⟩) hstates
      exact hK.settle ⟨hmain.node_eq, hmain.halt_eq, hmain.states,
        fun d hd => (hmain.problem d hd).elim (hnew d) .inr, hmain.allowed⟩ undos

/-! ### Whole expansions -/

/-- The expanders matter at the nodes that a node passes on only. -/
theorem expandWith (hK : K.Holds c) (hpart : K.part node.part)
    (hin : ∀ x, Inside c node x → ∀ s t, K.states s t → K.Meets x (nested x s) (nested' x t))
    (hsel : ∀ x, Selectable c node x → K.part x.part → ∀ s t, K.states s t →
      K.Meets x (selected x s) (selected' x t)) (h : K.states s t) :
    K.Meets node (expandWith c nested nested selected node s)
      (Expansion.expandWith c nested' nested' selected' node t) := by
  cases hexp : node.expanded with
  | true =>
    rw [expandWith_of_expanded hexp, expandWith_of_expanded hexp]
    exact ⟨rfl, rfl, h, fun d hd => .inl hd, nofun⟩
  | false =>
    cases hkind : node.kind with
    | unparsed =>
      have hrule : K.part ⟨.unparsed, node.raw⟩ := hkind ▸ hpart
      rw [expandWith_of_unparsed hexp hkind, expandWith_of_unparsed hexp hkind]
      have hmain := meets_expandRule { node with expanded := true } node.raw
        (fun x hx => hin x (.part hkind hx)) (hK.scanned hrule) h
      exact ⟨hmain.node_eq, hmain.halt_eq, hmain.states, hmain.problem, hmain.allowed⟩
    | plain =>
      rw [expandWith_of_plain hexp hkind, expandWith_of_plain hexp hkind]
      exact ⟨rfl, rfl, h, fun d hd => .inl hd, nofun⟩
    | tag =>
      rw [expandWith_of_tag hexp hkind, expandWith_of_tag hexp hkind]
      have hmain := hK.expandTag { node with expanded := true } hkind hpart
        (fun x hx => hin x (hx.of_eq rfl rfl rfl)) (fun x hx => hsel x (hx.of_eq rfl rfl)) h
      exact ⟨hmain.node_eq, hmain.halt_eq, hmain.states, hmain.problem, hmain.allowed⟩
    | action =>
      rw [expandWith_of_action hexp hkind rfl, expandWith_of_action hexp hkind rfl]
      obtain ⟨hproblems, hhalt, hstates, hproblem, hallowed⟩ :=
        hK.activate hpart (.bare hkind) (fun x hx => hin x (.action hkind hx)) h
      refine ⟨by rw [hproblems], hhalt, hstates, fun d hd => ?_, hallowed⟩
      exact (List.mem_append.1 hd).imp_right (hproblem d)

theorem expandWithin (hK : K.Holds c)
    (hsel : ∀ x, K.part x.part → ∀ s t, K.states s t → K.Meets x (selected x s) (selected' x t))
    (steps : Nat) :
    ∀ node, K.part node.part → ∀ s t, K.states s t →
      K.Meets node (expandWithin c selected steps node s)
        (Expansion.expandWithin c selected' steps node t) := by
  induction steps with
  | zero =>
    intro node _ s t h
    refine ⟨rfl, rfl, h, fun d hd => .inl hd, fun halt h => ?_⟩
    cases h
    exact hK.exhausted
  | succ steps ih =>
    intro node hpart s t h
    exact hK.expandWith hpart (fun x hx => ih x (hK.inside hpart hx)) (fun x _ => hsel x) h

/-- **Expansions keep to a regime** whose laws hold. -/
theorem expand (hK : K.Holds c) (levels : Nat) :
    ∀ node, K.part node.part → ∀ s t, K.states s t →
      K.Meets node (expand c levels node s) (Expansion.expand c levels node t) := by
  induction levels with
  | zero =>
    intro node
    refine hK.expandWithin (fun x _ s t h => ?_) (stepsWithin node.raw) node
    refine ⟨rfl, rfl, h, fun d hd => .inl hd, fun halt h => ?_⟩
    cases h
    exact hK.exhausted
  | succ levels ih => exact fun node => hK.expandWithin ih (stepsWithin node.raw) node

end Regime.Holds

end Expansion

end TextGrammar
