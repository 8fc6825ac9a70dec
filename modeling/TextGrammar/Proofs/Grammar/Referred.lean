import TextGrammar.Proofs.Double
import TextGrammar.Proofs.Grammar.Literal
import TextGrammar.Proofs.Grammar.Unresolved
import TextGrammar.Proofs.Markup.Referred

/-!
# Symbols referred to by name

The tag that refers to a declared symbol by its name, with escape marks where they are needed, is
expanded to one of the rules of the symbol exactly if none was needed (`Grammar.expand_reference`).
Any other name is taken for that of another symbol.

What the tag selects does not depend on how the expansion of the selected rule ends, so it is said
of the node of the tag, which is there after a halt as well.
-/

namespace TextGrammar

/-- The node for the reference to a name at the beginning of a rule. -/
def Node.reference (name : Text) : Node :=
  { raw := Text.literal '.' name, kind := .tag, depth := 1, index := 0 }

/-- The tag refers to the symbol and was expanded to one of its rules, and it has no problems of its
own. -/
structure Node.Resolved (n : Node) (name : Text) (rules : List Text) : Prop where
  symbol : n.symbol = some name
  childRule : ∃ rule ∈ rules, n.childRule = some rule
  problems : n.problems = n.problemsBelow

namespace Expansion

variable {α : Type} [Scalar α] {c : Context α} {name rule : Text} {s t : State α}

theorem symbol_resolve (c : Context α) (selected : Expander α) (symbol : Text) (node : Node)
    (s : State α) :
    (resolve c selected symbol node s).node.symbol = node.symbol ∧
      (resolve c selected symbol node s).node.modifiers = node.modifiers := by
  have hmodified : ∀ n : Node, (c.modifiers.applyAll n).symbol = n.symbol ∧
      (c.modifiers.applyAll n).modifiers = n.modifiers := by
    intro n
    obtain ⟨text, problems, hsame⟩ := c.modifiers.applyAll_eq n
    rw [hsame]
    exact ⟨rfl, rfl⟩
  cases hcap : c.settings.maxDepth.filter (· < node.depth) with
  | some cap =>
    rw [resolve_of_capped hcap]
    exact ⟨rfl, rfl⟩
  | none =>
    cases hrule : (s.select c symbol).1 with
    | none =>
      rw [resolve_of_unselected hcap hrule]
      exact hmodified _
    | some rule =>
      let main := expandRule selected (node.report (s.select c symbol).2.1) rule
        (s.select c symbol).2.2
      cases hhalt : main.halt with
      | some halt =>
        rw [resolve_of_halt hcap hrule rfl hhalt]
        exact ⟨rfl, rfl⟩
      | none =>
        rw [resolve_of_done hcap hrule rfl hhalt]
        exact hmodified main.node

/-- The node of a reference once its clause is read. -/
def referenceNode (name : Text) : Node :=
  { Node.reference name with
    expanded := true
    symbol := some (Tag.Clause.ofName name).symbol
    modifiers := (Tag.Clause.ofName name).modifiers }

/-- Nothing runs before the clause of a reference, and nothing is taken back behind it. -/
theorem expand_eq_resolve (hne : name ≠ []) (levels : Nat) (s : State α) :
    expand c levels (Node.reference name) s =
      resolve c (levelBelow c levels) (Tag.Clause.ofName name).symbol (referenceNode name)
        (s.enter (Tag.Clause.ofName name).symbol) := by
  let clause := Tag.Clause.ofName name
  let begun : Node := { Node.reference name with expanded := true }
  have hread : Tag.read begun.raw = .clause clause := Tag.read_literal hne
  have hempty : clause.preactions = [] ∧ clause.problems = [] := by
    simp only [clause, Tag.Clause.ofName]
    split <;> exact ⟨rfl, rfl⟩
  have hrun : runActions c (expand c levels) begun.depth clause s =
      ({ problems := [], state := s.enter clause.symbol }, []) := by
    rw [runActions, hempty.1]
    rfl
  have hentered : (enterClause begun clause).report [] = referenceNode name := by
    rw [Node.report_nil, enterClause, hempty.2, Node.report_nil]
    rfl
  rw [expand_eq, expandWith_of_tag rfl rfl, expandTag_of_done hread hrun rfl, hentered,
    Outcome.settle_nil]

/-- **A reference is resolved** where its symbol is the name and a rule is selected for it. -/
theorem resolved_expand_reference (hne : name ≠ []) (hfree : name.Free ['#', '[', ']', '\\', '.'])
    (hcap : c.settings.maxDepth.filter (· < 1) = none)
    (hselect : (s.enter name).select c name = (some rule, [], t)) {rules : List Text}
    (hrule : rule ∈ rules) (levels : Nat) :
    (expand c levels (Node.reference name) s).node.Resolved name rules := by
  have hsymbol : (Tag.Clause.ofName name).symbol = name := Tag.Clause.symbol_ofName.2 hfree
  have hmodifiers : (referenceNode name).modifiers = [] := Tag.Clause.modifiers_ofName hfree
  rw [expand_eq_resolve hne, hsymbol, resolve_of_selected hcap hmodifiers hselect]
  exact ⟨congrArg some hsymbol, ⟨rule, hrule, rfl⟩, rfl⟩

theorem expand_root_of_single {x : Section} (hscan : scan rule = ⟨[x], []⟩) (levels : Nat)
    (s : State α) :
    let whole := expand c levels (.root rule) s
    let part := expand c levels { raw := x.raw, kind := x.kind, depth := 1, index := 0 } s
    whole.halt = part.halt ∧ whole.state = part.state ∧
      (whole.halt = none → whole.node.children = [part.node] ∧
        whole.node.problems = (Node.root rule).problems ++ part.node.problems) := by
  intro whole part
  let child : Node := { raw := x.raw, kind := x.kind, depth := 1, index := 0 }
  have hwhole : whole =
      expandRule (expand c levels) { Node.root rule with expanded := true } rule s := by
    simp only [whole]
    rw [expand_eq, expandWith_of_unparsed rfl rfl]
    rfl
  let each := expandEach (expand c levels) [child] s
  have hproblems : whole.node.problems =
      (Node.root rule).problems ++ each.1.flatMap (·.problems) := by
    rw [hwhole]
    simp only [expandRule, hscan]
    rfl
  have hparts : whole.halt = each.2.2 ∧ whole.state = each.2.1 ∧ whole.node.children = each.1 := by
    rw [hwhole]
    simp only [expandRule, hscan]
    exact ⟨rfl, rfl, rfl⟩
  obtain ⟨hsame, hstate, hchildren⟩ := hparts
  cases hhalt : part.halt with
  | some halt =>
    have heach : each = ([], part.state, some halt) := expandEach_cons_of_halt hhalt
    rw [heach] at hsame hstate
    exact ⟨hsame, hstate, fun h => absurd (hsame.symm.trans h) (Option.some_ne_none halt)⟩
  | none =>
    have heach : each = ([part.node], part.state, none) := expandEach_cons_of_done hhalt
    rw [heach] at hsame hstate hchildren hproblems
    rw [List.flatMap_singleton] at hproblems
    exact ⟨hsame, hstate, fun _ => ⟨hchildren, hproblems⟩⟩

theorem expand_reference_of_unresolved (levels : Nat) (hne : name ≠ [])
    (hcap : c.settings.maxDepth.filter (· < 1) = none)
    (hnone : s.symbols.resolve? c.fallbacks (Tag.Clause.ofName name).symbol = none) :
    let clause := Tag.Clause.ofName name
    let o := expand c (levels + 1) (Node.reference name) s
    o.halt = none ∧ o.state = s.enter clause.symbol ∧
      o.node.text = c.modifiers.rewrite clause.modifiers (Text.placeholder clause.symbol) ∧
      o.node.problems = s.symbols.unresolved clause.symbol ::
        c.modifiers.missing clause.modifiers := by
  intro clause o
  let shown := Text.placeholder clause.symbol
  let filled := ((referenceNode name).report [s.symbols.unresolved clause.symbol]).gather shown
    [Node.plainChild 2 shown]
  have ho : o = { node := c.modifiers.applyAll filled, state := s.enter clause.symbol } :=
    (expand_eq_resolve hne (levels + 1) s).trans
      (resolve_of_unresolved ((Text.neutral_literal '.' name).closed .tag) (Tag.read_literal hne)
        hcap hnone)
  have htext : filled.text = shown := List.append_nil shown
  have hclean : (scan shown).problems = [] :=
    congrArg Scanned.problems (scan_of_neutral (Tag.Clause.neutral_placeholder name))
  have hproblems : filled.problems = [s.symbols.unresolved clause.symbol] := by
    simp [filled, Node.gather, referenceNode, Node.reference, Node.plainChild, hclean]
  rw [ho]
  refine ⟨rfl, rfl, ?_, ?_⟩
  · rw [c.modifiers.text_applyAll, htext]
    rfl
  · rw [c.modifiers.problems_applyAll, hproblems]
    rfl

end Expansion

namespace Grammar

open Expansion

theorem expand_of_single {α : Type} [Scalar α] (g : Grammar α) {rule : Text} {x : Section}
    (hrule : rule ≠ []) (hscan : scan rule = ⟨[x], []⟩) (keepEscapes : Bool) :
    let e := g.expand rule keepEscapes
    let part := g.expandNode { raw := x.raw, kind := x.kind, depth := 1, index := 0 }
    e.halt = part.halt ∧ e.grammar = part.grammar ∧
      (e.halt = none →
        e.node.children = [part.node] ∧ e.node.problems = part.node.problems) := by
  intro e part
  obtain ⟨hhalt, hstate, hdone⟩ := expand_root_of_single (c := g.context) hscan g.settings.levels
    g.state
  rw [Node.problems_root hrule, List.nil_append] at hdone
  refine ⟨(g.halt_expand rule keepEscapes).trans hhalt, ?_, fun h => ?_⟩
  · rw [grammar_expand]
    exact congrArg g.withState hstate
  · obtain ⟨hchildren, hproblems⟩ := hdone ((g.halt_expand rule keepEscapes).symm.trans h)
    refine ⟨?_, (g.problems_expand rule keepEscapes).trans hproblems⟩
    rw [node_expand]
    cases keepEscapes <;> exact hchildren

/-- **A declared symbol can be referred to by its name exactly if nothing in it has to be escaped.**
Let the name be declared with rules in a valid document, and write the reference with escape marks.
In the grammar of the document it is one tag. The tag refers to the name, is expanded to one of its
rules and records nothing of its own, if no escape mark had to be put into the name. Otherwise it
refers to another symbol, and what stands behind the first point are modifiers; if there are no rules
for that symbol, a placeholder is shown, which is reported, and nothing is selected. -/
theorem expand_reference {d : Document Float} {name : Text} {definition : Definition Float}
    (hvalid : d.validate = .ok ()) (hfind : d.find? name = some definition)
    (hrules : definition.rules ≠ []) (hne : name ≠ []) (modifiers : Registry)
    (fallbacks : List (Grammar Float)) (source : Source Float) {settings : Settings}
    (hcap : ∀ cap, settings.maxDepth = some cap → 1 ≤ cap) (keepEscapes : Bool) :
    ∃ g, ofDocument d modifiers fallbacks source settings = .ok g ∧
      let e := g.expand (Text.reference name) keepEscapes
      let tag := g.expandNode (Node.reference name)
      let clause := Tag.Clause.ofName name
      (e.halt = tag.halt ∧ e.grammar = tag.grammar ∧
        (e.halt = none →
          e.node.children = [tag.node] ∧ e.node.problems = tag.node.problems)) ∧
      (tag.node.symbol = some clause.symbol ∧ tag.node.modifiers = clause.modifiers) ∧
      (tag.node.Resolved name definition.rules ↔ name.Free ['#', '[', ']', '\\', '.']) ∧
      ((∀ t ∈ g.symbols :: g.fallbacks.map (·.symbols), ∀ s : Store Float,
          t.find? clause.symbol = some s → s.active = []) →
        tag.halt = none ∧ tag.grammar = g ∧
          tag.node.text =
            g.modifiers.rewrite clause.modifiers (Text.placeholder clause.symbol) ∧
          tag.node.problems = g.symbols.unresolved clause.symbol ::
            g.modifiers.missing clause.modifiers) := by
  let g : Grammar Float := { symbols := .ofDocument d, modifiers, fallbacks, source, settings }
  refine ⟨g, ofDocument_of_valid hvalid modifiers fallbacks source settings, ?_⟩
  intro e tag clause
  have huncapped : g.context.settings.maxDepth.filter (· < 1) = none := uncapped_of_depth_le hcap
  have hsymbol : tag.node.symbol = some clause.symbol ∧ tag.node.modifiers = clause.modifiers := by
    have htag : tag.node = (resolve g.context (levelBelow g.context g.settings.levels)
        clause.symbol (referenceNode name) (g.state.enter clause.symbol)).node :=
      congrArg Outcome.node (expand_eq_resolve hne g.settings.levels g.state)
    rw [htag]
    exact symbol_resolve _ _ _ (referenceNode name) _
  refine ⟨?_, hsymbol, ⟨fun h => ?_, fun hfree => ?_⟩, fun hnone => ?_⟩
  · exact g.expand_of_single (by simp [Text.reference, Section.source]) (scan_reference hne)
      keepEscapes
  · exact Tag.Clause.symbol_ofName.1 (Option.some.inj (hsymbol.1.symm.trans h.symbol))
  · -- a rule is selected, whatever the weights and the value drawn are
    have hfault : definition.fault? = none :=
      Document.validate_eq_ok.1 hvalid _ (Named.find?_eq_some.1 hfind)
    obtain ⟨rule, hrule, hselection⟩ := Symbols.exists_select_ofDocument hfind hfault
      (Definition.productive_of_fault? hfault hrules) g.context.fallbacks source
    have hselect : (g.state.enter name).select g.context name =
        (some rule, [], { g.state.enter name with source := source.next.2 }) := by
      simp only [State.select, State.enter, state, g, hselection]
    exact resolved_expand_reference hne hfree huncapped hselect hrule g.settings.levels
  · obtain ⟨levels, hlevels⟩ := Nat.exists_eq_add_one.2 g.settings.levels_pos
    have hlookup : g.state.symbols.resolve? g.context.fallbacks clause.symbol = none :=
      Symbols.resolve?_eq_none.2 hnone
    obtain ⟨hhalt, hstate, htext, hproblems⟩ :=
      expand_reference_of_unresolved levels hne huncapped hlookup
    rw [← hlevels] at hhalt hstate htext hproblems
    have hgrammar : g.withState (g.state.enter clause.symbol) = g := withState_state g
    exact ⟨hhalt, (congrArg g.withState hstate).trans hgrammar, htext, hproblems⟩

/-- Of two symbols one has a point in its name. The other has a rule of weight zero, and the value
that is drawn is the lowest. -/
theorem expand_reference_weighted :
    let d : Document Float := .ofList
      [("a.b".toList, .many [['x']]), (['é'], .weighted [['y'], ['z']] [0, 0.5])]
    let settings : Settings := { maxDepth := some 1 }
    ∃ g, ofDocument d .empty [] (.fixed 0) settings = .ok g ∧
      (g.expandNode (Node.reference ['é'])).node.Resolved ['é'] [['y'], ['z']] ∧
      let tag := g.expandNode (Node.reference "a.b".toList)
      ¬tag.node.Resolved "a.b".toList [['x']] ∧ tag.node.text = "((a\\))((.b))".toList ∧
        tag.node.problems = [.missingSymbol "a\\".toList, .missingModifier ['b']] ∧
        tag.grammar = g := by
  intro d settings
  have hvalid : d.validate = .ok () := by rfl
  have hcap : ∀ cap, settings.maxDepth = some cap → 1 ≤ cap := by
    rintro cap ⟨⟩
    exact Nat.le_refl 1
  have hfind : d.find? ['é'] = some (.weighted [['y'], ['z']] [0, 0.5]) := rfl
  have hfind' : d.find? "a.b".toList = some (.many [['x']]) := rfl
  obtain ⟨g, hg, -, -, hplain, -⟩ := expand_reference hvalid hfind (by decide) (by decide)
    .empty [] (.fixed 0) hcap true
  obtain ⟨g', hg', -, -, hpoint, hmissing⟩ := expand_reference hvalid hfind' (by decide)
    (by decide) .empty [] (.fixed 0) hcap true
  obtain rfl : g = g' := Except.ok.inj (hg.symm.trans hg')
  have hbuild := ofDocument_of_valid hvalid .empty [] (.fixed 0) settings
  obtain rfl := Except.ok.inj (hbuild.symm.trans hg)
  have hnone : ∀ t ∈ [Symbols.ofDocument d], ∀ s : Store Float,
      t.find? (Tag.Clause.ofName "a.b".toList).symbol = some s → s.active = [] := by
    refine List.forall_mem_singleton.2 fun s hs => ?_
    have hfind : (Symbols.ofDocument d).find? (Tag.Clause.ofName "a.b".toList).symbol = none := rfl
    rw [hfind] at hs
    cases hs
  obtain ⟨-, hgrammar, htext, hproblems⟩ := hmissing hnone
  have hmarked : ¬Text.Free ['#', '[', ']', '\\', '.'] "a.b".toList := by decide
  exact ⟨_, hg, hplain.2 (by decide), fun h => hmarked (hpoint.1 h), htext, hproblems, hgrammar⟩

/-- The point is escaped, and yet it ends the symbol, which keeps the mark. -/
theorem expand_reference_point :
    let g := ofRules [("a.b", ["x"])]
    let e := g.expand "#a\\.b#".toList true
    Text.reference "a.b".toList = "#a\\.b#".toList ∧
      (g.select "a.b".toList).1 = some ['x'] ∧ e.halt = none ∧
      e.node.problems = [.missingSymbol "a\\".toList, .missingModifier ['b']] ∧
      e.node.children.map (·.childRule) = [some "((a\\))".toList] := by
  decide +kernel

end Grammar

end TextGrammar
