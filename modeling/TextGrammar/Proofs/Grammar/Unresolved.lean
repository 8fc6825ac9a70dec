import TextGrammar.Proofs.Grammar.Draws
import TextGrammar.Proofs.Grammar.Recorded
import TextGrammar.Proofs.Markup.Closed

/-!
# Symbols without rules

A tag whose symbol has no rules anywhere shows the placeholder for the name. The placeholder is
expanded like any rule that is selected, so it is scanned, and the name may hold almost everything
that means something to a scan: brackets, a `#` between brackets, or an escape mark whose character
is lost behind a point. But it has stood between the delimiters of a tag, and so the placeholder is
one plain section (`scan_placeholder`), with one plain child (`expandRule_of_plain`).

That is all there is to such a tag (`Expansion.resolve_of_unresolved`): nothing is drawn, nothing is
pushed, and the name is reported once (`Grammar.expandNode_of_unresolved`).
-/

namespace TextGrammar

variable {α : Type}

/-! ### Names without rules -/

namespace Symbols

theorem resolve?_eq_none {t : Symbols α} {fallbacks : List (Symbols α)} {name : Text} :
    t.resolve? fallbacks name = none ↔
      ∀ u ∈ t :: fallbacks, ∀ s : Store α, u.find? name = some s → s.active = [] := by
  have hactive : ∀ u : Symbols α,
      u.active? name = none ↔ ∀ s : Store α, u.find? name = some s → s.active = [] := by
    intro u
    simp [active?, Option.filter_eq_none_iff]
  rw [resolve?, Option.or_eq_none_iff, List.findSome?_eq_none_iff, List.forall_mem_cons, hactive]
  simp only [hactive]

/-- A store that is declared makes the difference between an empty symbol and a missing one. -/
theorem unresolved_eq_emptySymbol {t : Symbols α} {name : Text}
    (h : ∃ s : Store α, t.find? name = some s ∧ s.dynamic = false) :
    t.unresolved name = .emptySymbol name := by
  obtain ⟨s, hs, hdynamic⟩ := h
  rw [unresolved_eq, store, hs, Option.getD_some, hdynamic]
  rfl

theorem unresolved_eq_missingSymbol {t : Symbols α} {name : Text}
    (h : ¬∃ s : Store α, t.find? name = some s ∧ s.dynamic = false) :
    t.unresolved name = .missingSymbol name := by
  rw [unresolved_eq, store]
  cases hs : t.find? name with
  | none => rfl
  | some s =>
    have hdynamic : s.dynamic = true := by
      rw [← Bool.not_eq_false]
      exact fun hfalse => h ⟨s, hs, hfalse⟩
    rw [Option.getD_some, hdynamic]
    rfl

end Symbols

/-! ### The placeholder as a rule -/

/-- What becomes of the node for plain text that stands at the beginning of a rule. -/
def Node.plainChild (depth : Nat) (text : Text) : Node :=
  { raw := text, kind := .plain, depth, index := 0, expanded := true, text }

namespace Expansion

variable [Scalar α] {c : Context α} {levels : Nat} {node : Node} {s : State α} {rule : Text}

theorem expandRule_of_plain (hscan : (scan rule).sections = [⟨.plain, rule⟩]) :
    expandRule (expand c levels) node rule s =
      { node := node.gather rule [Node.plainChild (node.depth + 1) rule], state := s } := by
  let child : Node := { raw := rule, kind := .plain, depth := node.depth + 1, index := 0 }
  have hchild : expand c levels child s =
      { node := Node.plainChild (node.depth + 1) rule, state := s } := by
    rw [expand_eq, expandWith_of_plain rfl rfl]
    rfl
  have heach : expandEach (expand c levels)
      (Node.ofSections (node.depth + 1) (scan rule).sections) s =
      ([Node.plainChild (node.depth + 1) rule], s, none) := by
    rw [hscan]
    change expandEach (expand c levels) [child] s = _
    rw [expandEach_cons_of_done (by rw [hchild]), hchild]
    rfl
  simp only [expandRule, heach]
  rfl

/-- **A tag without rules is given the placeholder** for its symbol, and its modifiers are applied
to that. -/
theorem resolve_of_unresolved {clause : Tag.Clause} {raw : Text}
    (hclosed : Section.Closed ⟨.tag, raw⟩) (hread : Tag.read raw = .clause clause)
    (hcap : c.settings.maxDepth.filter (· < node.depth) = none)
    (hnone : s.symbols.resolve? c.fallbacks clause.symbol = none) :
    resolve c (expand c levels) clause.symbol node s =
      { node := c.modifiers.applyAll ((node.report [s.symbols.unresolved clause.symbol]).gather
          (Text.placeholder clause.symbol)
          [Node.plainChild (node.depth + 1) (Text.placeholder clause.symbol)])
        state := s } := by
  have hselect : s.select c clause.symbol =
      (some (Text.placeholder clause.symbol), [s.symbols.unresolved clause.symbol], s) := by
    simp only [State.select, Symbols.select_of_unresolved hnone]
  let reported := node.report [s.symbols.unresolved clause.symbol]
  have hrule : expandRule (expand c levels) reported (Text.placeholder clause.symbol) s = _ :=
    expandRule_of_plain (scan_placeholder hclosed hread)
  rw [resolve_of_done hcap (by rw [hselect]) (by rw [hselect, hrule]) rfl]
  rfl

/-- Without a level for it the placeholder is not expanded. -/
theorem resolve_exhausted_of_unresolved {clause : Tag.Clause} {raw : Text}
    (hclosed : Section.Closed ⟨.tag, raw⟩) (hread : Tag.read raw = .clause clause)
    (hcap : c.settings.maxDepth.filter (· < node.depth) = none)
    (hnone : s.symbols.resolve? c.fallbacks clause.symbol = none) :
    (resolve c exhaust clause.symbol node s).halt = some .exhausted := by
  have hrule : (s.select c clause.symbol).1 = some (Text.placeholder clause.symbol) := by
    simp only [State.select, Symbols.select_of_unresolved hnone]
  have hhalt : ∀ (n : Node) (t : State α),
      (expandRule exhaust n (Text.placeholder clause.symbol) t).halt = some .exhausted := by
    intro n t
    simp only [expandRule, scan_placeholder hclosed hread]
    rfl
  rw [resolve_of_halt hcap hrule rfl (hhalt _ _), hhalt]

/-! ### Reports of symbols -/

omit [Scalar α] in
theorem countP_isUnselected_missing (r : Registry) (references : List Text) :
    (r.missing references).countP (·.isUnselected) = 0 := by
  refine List.countP_eq_zero.2 fun d hd => ?_
  obtain ⟨reference, -, hd⟩ := List.mem_flatMap.1 hd
  dsimp only at hd
  split_ifs at hd
  · rw [List.mem_singleton.1 hd]
    exact Bool.false_ne_true
  · cases hd

omit [Scalar α] in
theorem countP_isUnselected_popAll (s : State α) (scope : Scope) (names : List Text) :
    (s.popAll scope names).1.countP (·.isUnselected) = 0 := by
  induction names generalizing s with
  | nil => rfl
  | cons name names ih =>
    have hpop : (s.pop scope name).1.countP (·.isUnselected) = 0 := by
      simp only [State.pop, Symbols.pop_fst]
      split_ifs <;> rfl
    rw [State.popAll, List.countP_append, hpop, ih]

/-! ### Tags -/

/-- What such a tag is once its actions have run: it has the placeholder below it and behind its
modifiers, it records one report of its symbol, and it only takes back what it has pushed. -/
theorem expandTag_of_unresolved {clause : Tag.Clause} {nested : Expander α}
    (hclosed : Section.Closed ⟨.tag, node.raw⟩) (hread : Tag.read node.raw = .clause clause)
    (hcap : c.settings.maxDepth.filter (· < node.depth) = none)
    {before : Activation α} {undos : List Text}
    (hrun : runActions c nested node.depth clause s = (before, undos)) (hdone : before.halt = none)
    (hnone : before.state.symbols.resolve? c.fallbacks clause.symbol = none) {o : Outcome α}
    (ho : expandTag c nested (expand c levels) node s = o) :
    let shown := Text.placeholder clause.symbol
    o.halt = none ∧ o.node.children = [Node.plainChild (node.depth + 1) shown] ∧
      o.node.text = c.modifiers.rewrite clause.modifiers shown ∧
      o.node.problems = node.problems ++ clause.problems ++ before.problems ++
        before.state.symbols.unresolved clause.symbol ::
          ((scan shown).problems ++ c.modifiers.missing clause.modifiers ++
            (before.state.popAll .undo undos).1) ∧
      o.state = (before.state.popAll .undo undos).2 := by
  intro shown
  let entered := (enterClause node clause).report before.problems
  let filled := (entered.report [before.state.symbols.unresolved clause.symbol]).gather shown
    [Node.plainChild (node.depth + 1) shown]
  have hmain : resolve c (expand c levels) clause.symbol entered before.state =
      { node := c.modifiers.applyAll filled, state := before.state } :=
    resolve_of_unresolved hclosed hread hcap hnone
  rw [expandTag_of_done hread hrun hdone, hmain] at ho
  subst ho
  refine ⟨rfl, Node.children_applyAll c.modifiers filled, ?_, ?_, rfl⟩
  · have htext : filled.text = shown := List.append_nil shown
    have hrewritten := c.modifiers.text_applyAll filled
    rwa [htext] at hrewritten
  · simp only [Outcome.settle, Node.problems_report, c.modifiers.problems_applyAll]
    simp [filled, entered, Node.gather, Node.report, enterClause, Node.plainChild]

/-- It halts where its actions have halted, and where there is no level for the placeholder. -/
theorem halt_expandTag_of_unresolved {clause : Tag.Clause}
    (hclosed : Section.Closed ⟨.tag, node.raw⟩) (hread : Tag.read node.raw = .clause clause)
    (hcap : c.settings.maxDepth.filter (· < node.depth) = none)
    {before : Activation α} {undos : List Text}
    (hrun : runActions c (expand c levels) node.depth clause s = (before, undos))
    (hnone : before.state.symbols.resolve? c.fallbacks clause.symbol = none) {o : Outcome α}
    (ho : expandTag c (expand c levels) (levelBelow c levels) node s = o) :
    (levels ≠ 0 → o.halt = before.halt) ∧ (o.halt = none → before.halt = none ∧ levels ≠ 0) := by
  cases hhalt : before.halt with
  | some halt =>
    have hhalted : o.halt = some halt := by
      rw [← ho, expandTag_of_halt hread hrun hhalt]
      rfl
    exact ⟨fun _ => hhalted, fun hdone => absurd (hhalted.symm.trans hdone) (Option.some_ne_none _)⟩
  | none =>
    cases levels with
    | zero =>
      have hhalted : o.halt = some .exhausted := by
        rw [← ho, expandTag_of_done hread hrun hhalt]
        exact resolve_exhausted_of_unresolved hclosed hread hcap hnone
      exact ⟨fun h => absurd rfl h,
        fun hdone => absurd (hhalted.symm.trans hdone) (Option.some_ne_none _)⟩
    | succ levels =>
      obtain ⟨hdone, -⟩ := expandTag_of_unresolved hclosed hread hcap hrun hhalt hnone ho
      exact ⟨fun _ => hdone, fun _ => ⟨rfl, Nat.succ_ne_zero levels⟩⟩

end Expansion

namespace Grammar

open Expansion

variable [Scalar α] {g : Grammar α} {node : Node} {clause : Tag.Clause} {rule : Text}

/-- **A symbol without rules is shown whole.**  Take a tag that was cut out of a rule and lies within
the cap, and a symbol that has no active rules anywhere once the actions of the tag have run. Unless
one of these halts, the tag has one plain child, the placeholder for its symbol, and this is its text
before its modifiers. Nothing is drawn from then on, and one report says that the symbol is empty, if
it is declared, and otherwise that it is missing. -/
theorem expandNode_of_unresolved (levels : Nat) (hmem : ⟨.tag, node.raw⟩ ∈ (scan rule).sections)
    (hkind : node.kind = .tag) (hexpanded : node.expanded = false)
    (hread : Tag.read node.raw = .clause clause)
    (hcap : ∀ cap, g.settings.maxDepth = some cap → node.depth ≤ cap)
    {before : Activation α} {undos : List Text}
    (hrun : runActions g.context (Expansion.expand g.context levels) node.depth clause g.state =
      (before, undos))
    (hnone : ∀ t ∈ before.state.symbols :: g.fallbacks.map (·.symbols), ∀ s : Store α,
      t.find? clause.symbol = some s → s.active = []) :
    let e := g.expandNodeWithin levels node
    let shown := Text.placeholder clause.symbol
    let declared := ∃ s : Store α, before.state.symbols.find? clause.symbol = some s ∧
      s.dynamic = false
    (levels ≠ 0 → e.halt = before.halt) ∧
      (e.halt = none →
        e.node.children = [Node.plainChild (node.depth + 1) shown] ∧
        e.node.text = g.modifiers.rewrite clause.modifiers shown ∧
        (before.state.select g.context clause.symbol).2.2 = before.state ∧
        e.grammar.source = before.state.source ∧
        ∃ d rest, e.node.problems =
            node.problems ++ clause.problems ++ before.problems ++ d :: rest ∧
          (declared → d = .emptySymbol clause.symbol) ∧
          (¬declared → d = .missingSymbol clause.symbol) ∧
          rest.countP (·.isUnselected) = 0) := by
  intro e shown declared
  let begun : Node := { node with expanded := true }
  have hbegun : Tag.read begun.raw = .clause clause := hread
  have hclosed : Section.Closed ⟨.tag, begun.raw⟩ := closed_of_mem_scan hmem (by simp)
  have huncapped : g.context.settings.maxDepth.filter (· < node.depth) = none :=
    uncapped_of_depth_le hcap
  have hlookup : before.state.symbols.resolve? g.context.fallbacks clause.symbol = none :=
    Symbols.resolve?_eq_none.2 hnone
  let o := expandTag g.context (Expansion.expand g.context levels) (levelBelow g.context levels)
    begun g.state
  have he : e = g.finish o := by
    simp only [e, o, expandNodeWithin, expand_eq, expandWith_of_tag hexpanded hkind, begun]
  rw [he]
  obtain ⟨hsame, hthrough⟩ := halt_expandTag_of_unresolved hclosed hbegun huncapped hrun hlookup
    (show _ = o from rfl)
  refine ⟨hsame, fun hdone => ?_⟩
  obtain ⟨hhalt, hlevels⟩ := hthrough hdone
  obtain ⟨below, rfl⟩ := Nat.exists_eq_succ_of_ne_zero hlevels
  obtain ⟨-, hchildren, htext, hproblems, hstate⟩ :=
    expandTag_of_unresolved hclosed hbegun huncapped hrun hhalt hlookup (show _ = o from rfl)
  have hsource : o.state.source = before.state.source := by
    rw [hstate, State.source_popAll]
  refine ⟨hchildren, htext, ?_, hsource, _, _, hproblems, Symbols.unresolved_eq_emptySymbol,
    Symbols.unresolved_eq_missingSymbol, ?_⟩
  · simp only [State.select, Symbols.select_of_unresolved hlookup]
  · rw [List.countP_append, List.countP_append, countP_isUnselected_scan,
      countP_isUnselected_missing, countP_isUnselected_popAll]

/-- The name closes a bracket that is not open, has a `#` below depth zero, and ends in an escape
mark whose point is lost. It is declared without rules, and the fallback keeps a store for it that a
pop has emptied. Before it the tag pushes a text in which another symbol is missing. -/
theorem expandNode_of_unresolved_unbalanced :
    let name : Text := "]a#b\\".toList
    let fallback := (((ofRules []).push name [['1']] true).pop name).2
    let g := (ofRules [("]a#b\\", [])]).addFallback fallback
    let node : Node := { raw := "[x:#q#]]a#b\\.[d".toList, kind := .tag, depth := 1, index := 1 }
    let e := g.expandNodeWithin 1 node
    ⟨.tag, node.raw⟩ ∈ (scan "<#[x:#q#]]a#b\\.[d#>".toList).sections ∧
      fallback.symbols.names = [name] ∧ e.halt = none ∧
      e.node.children = [Node.plainChild 2 "((]a#b\\))".toList] ∧
      e.node.text = "((]a#b\\))((.[d))".toList ∧
      ∃ rest, e.node.problems = .missingSymbol ['q'] :: .emptySymbol name :: rest ∧
        rest.countP (·.isUnselected) = 0 := by
  intro name fallback g node e
  have hmem : ⟨.tag, node.raw⟩ ∈ (scan "<#[x:#q#]]a#b\\.[d#>".toList).sections := by decide +kernel
  let clause : Tag.Clause :=
    { symbol := name, modifiers := ["[d".toList], preactions := [⟨.action, "x:#q#".toList⟩]
      problems := [] }
  have hread : Tag.read node.raw = .clause clause := by decide +kernel
  have hcap : ∀ cap, g.settings.maxDepth = some cap → node.depth ≤ cap := by
    rintro cap ⟨⟩
    decide
  let run := runActions g.context (Expansion.expand g.context 1) node.depth clause g.state
  have hready : run.1.halt = none ∧ run.1.problems = [.missingSymbol ['q']] := by decide +kernel
  have hstores : (run.1.state.symbols :: g.fallbacks.map (·.symbols)).map
      (fun t => (t.find? name).map fun s => (s.active, s.dynamic)) =
      [some ([], false), some ([], true)] := by decide +kernel
  rcases hrun : run with ⟨before, undos⟩
  rw [hrun] at hready hstores
  have hnone : ∀ t ∈ before.state.symbols :: g.fallbacks.map (·.symbols), ∀ s : Store Float,
      t.find? name = some s → s.active = [] := by
    intro t ht s hs
    have hpair := List.mem_map_of_mem (f := fun t => (t.find? name).map
      fun s => (s.active, s.dynamic)) ht
    rw [hstores, hs] at hpair
    have hactive : s.active = [] ∧ s.dynamic = false ∨ s.active = [] ∧ s.dynamic = true := by
      simpa using hpair
    exact hactive.elim And.left And.left
  have hdeclared : ∃ s : Store Float, before.state.symbols.find? name = some s ∧
      s.dynamic = false := by
    obtain ⟨s, hs, hpair⟩ := Option.map_eq_some_iff.1 (List.cons.inj hstores).1
    exact ⟨s, hs, congrArg Prod.snd hpair⟩
  obtain ⟨hhalt, hdone⟩ := expandNode_of_unresolved 1 hmem rfl rfl hread hcap hrun hnone
  have hwhole : e.halt = none := (hhalt Nat.one_ne_zero).trans hready.1
  obtain ⟨hchildren, htext, -, -, d, rest, hproblems, hempty, -, hrest⟩ := hdone hwhole
  rw [hready.2, hempty hdeclared] at hproblems
  exact ⟨hmem, by decide +kernel, hwhole, hchildren, htext, rest, hproblems, hrest⟩

end Grammar

end TextGrammar
