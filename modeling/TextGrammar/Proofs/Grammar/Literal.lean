import TextGrammar.Proofs.Grammar.ScopedPush
import TextGrammar.Proofs.Markup.Literal
import TextGrammar.Proofs.Selection

/-!
# Texts that come out as they went in

Any text can be put into a grammar so that it comes out again as it is, by escaping its markup and
the separator of alternatives. Expanded by itself it gives itself; pushed over a symbol with others,
one of them comes out where the symbol is selected (`Grammar.expand_literal`).

The escape marks have to last through all of this. Such a text is expanded once when it is pushed
and once more when it is selected, and both times it is plain text and its marks stay; what removes
them is the end of the whole expansion, and nothing before it.
-/

namespace TextGrammar

variable {α : Type} [Scalar α]

namespace Expansion

variable {c : Context α} {levels depth : Nat} {rule : Text} {rules : List Text}

theorem expand_of_neutral (node : Node) (hexp : node.expanded = false)
    (hkind : node.kind = .unparsed) (hraw : node.raw.Neutral) (levels : Nat) (s : State α) :
    (expand c levels node s).node.text = node.raw ∧
      (expand c levels node s).node.problems = node.problems ∧
      (expand c levels node s).state = s ∧ (expand c levels node s).halt = none := by
  have hy : gatherSections (expand c levels) (node.depth + 1) (scan node.raw).sections s =
      ⟨node.raw, [], s, none⟩ := by
    rw [scan_of_neutral hraw, gatherSections_ofPlain]
  obtain ⟨htext, hproblems, hstate, hhalt⟩ := expand_of_unparsed node hexp hkind levels s hy
  rw [scan_of_neutral hraw, List.append_nil, List.append_nil] at hproblems
  exact ⟨htext, hproblems, hstate, hhalt⟩

theorem expandEach_of_neutral (hrules : ∀ rule ∈ rules, rule.Neutral) (levels depth : Nat)
    (s : State α) :
    ∃ done, expandEach (expand c levels) (rules.map (Node.nested depth)) s = (done, s, none) ∧
      done.map (·.text) = rules ∧ done.flatMap (·.problems) = [] := by
  induction rules with
  | nil => exact ⟨[], rfl, rfl, rfl⟩
  | cons rule rules ih =>
    obtain ⟨hrule, hrules⟩ := List.forall_mem_cons.1 hrules
    obtain ⟨done, heach, htexts, hfound⟩ := ih hrules
    obtain ⟨htext, hproblems, hstate, hhalt⟩ :=
      expand_of_neutral (c := c) (Node.nested depth rule) rfl rfl hrule levels s
    let first := (expand c levels (Node.nested depth rule) s).node
    refine ⟨first :: done, ?_, ?_, ?_⟩
    · rw [List.map_cons, expandEach_cons_of_done hhalt, hstate, heach]
    · rw [List.map_cons, htext, htexts]
      rfl
    · rw [List.flatMap_cons, hproblems, hfound]
      rfl

theorem activate_push_of_neutral {scope : Scope} {target text : Text}
    (hsplit : Alternatives.split c.settings.separator text = rules)
    (hrules : ∀ rule ∈ rules, rule.Neutral) (s : State α) :
    activate c (expand c levels) scope depth (.push target text) s =
      { problems := [], state := s.push scope target rules } := by
  obtain ⟨done, heach, htexts, hfound⟩ := expandEach_of_neutral (c := c) hrules levels depth s
  rw [← hsplit] at heach
  have hdone : expandEach (expand c levels) (alternatives c depth text) s = (done, s, none) := heach
  rw [activate_push_of_done (by rw [hdone]), hdone, htexts, hfound]

theorem resolve_of_neutral {node : Node} {symbol : Text} {s t : State α}
    (hcap : c.settings.maxDepth.filter (· < node.depth) = none) (hmodifiers : node.modifiers = [])
    (hselect : s.select c symbol = (some rule, [], t)) (hrule : rule.Neutral) {o : Outcome α}
    (ho : resolve c (levelBelow c (levels + 1)) symbol node s = o) :
    o.node.text = rule ∧ o.node.problems = node.problems ∧ o.state = t ∧ o.halt = none := by
  rw [resolve_of_selected hcap hmodifiers hselect] at ho
  subst ho
  let main := expandRule (expand c levels) node rule t
  have hgather : gather (expand c levels)
      (Node.ofSections (node.depth + 1) (scan rule).sections) t = ⟨rule, [], t, none⟩ := by
    rw [gather_ofSections, scan_of_neutral hrule, gatherSections_ofPlain]
  have htext : main.node.text = rule := congrArg Yield.text hgather
  have hstate : main.state = t := congrArg Yield.state hgather
  have hhalt : main.halt = none := congrArg Yield.halt hgather
  have hproblems : main.node.problems = node.problems := by
    have hclean : (scan rule).problems = [] := congrArg Scanned.problems (scan_of_neutral hrule)
    have hfound : main.node.children.flatMap (·.problems) = [] := congrArg Yield.problems hgather
    change node.problems ++
      ((scan rule).problems ++ main.node.children.flatMap (·.problems)) = _
    rw [hclean, hfound, List.append_nil, List.append_nil]
  exact ⟨htext, hproblems, hstate, hhalt⟩

/-! ### One of several texts -/

/-- The push that pushes texts as they are. -/
def literalPush (separator : Char) (symbol : Text) (ts : List Text)
    (hsymbol : ∀ c ∈ symbol, c ∉ ['#', '[', ']', '\\', '.', ':'])
    (hseparator : separator ∉ ['#', '[', ']', '\\'])
    (hrules : Text.join [separator] (ts.map (Text.literal separator)) ≠ Action.popWord) : Push where
  target := symbol
  rules := Text.join [separator] (ts.map (Text.literal separator))
  target_ordinary c hc h := hsymbol c hc (List.mem_append_left ['.', ':'] h)
  colon_not_mem h := hsymbol ':' h (by simp)
  rules_ne := hrules
  rules_balanced := by
    refine (Text.neutral_join (Text.neutral_singleton hseparator) ?_).balanced
    exact List.forall_mem_map.2 fun t _ => Text.neutral_literal separator t

theorem runActions_of_neutral {p : Push}
    (hsplit : Alternatives.split c.settings.separator p.rules = rules)
    (hrules : ∀ rule ∈ rules, rule.Neutral) (clause : Text) (s : State α) :
    runActions c (expand c levels) depth (Push.clauseOf [p] clause) s =
      ({ problems := []
         state := (s.enter (Push.clauseOf [p] clause).symbol).push .before p.target rules },
        [p.target]) := by
  have hactions : (Push.clauseOf [p] clause).preactions.map (fun x => Action.read x.raw) =
      [.push p.target p.rules] := by
    simp only [Push.clauseOf, List.map_cons, List.map_nil, p.read_action]
  let entered := s.enter (Push.clauseOf [p] clause).symbol
  have hpush : activate c (expand c levels) .before depth (.push p.target p.rules) entered =
      { problems := [], state := entered.push .before p.target rules } :=
    activate_push_of_neutral hsplit hrules entered
  rw [runActions, hactions, activateEach_cons_of_done (by rw [hpush]) rfl, hpush]
  rfl

omit [Scalar α] in
/-- The end of a tag takes back what is on top of a stack. -/
theorem popAll_singleton {s : State α} {name : Text} {rest : List (List Text)} (scope : Scope)
    (h : s.symbols.stack name = rules :: rest) :
    (s.popAll scope [name]).1 = [] ∧
      ∀ key, (s.popAll scope [name]).2.symbols.stack key =
        if key = name then rest else s.symbols.stack key := by
  refine ⟨?_, fun key => ?_⟩
  · simp only [State.popAll, State.pop, Symbols.pop_of_stack_eq_cons h, List.append_nil]
  · change (s.symbols.pop name).2.stack key = _
    rw [Symbols.stack_pop]
    by_cases hkey : key = name
    · rw [if_pos hkey, if_pos hkey, hkey, h, List.tail_cons]
    · rw [if_neg hkey, if_neg hkey]

/-- A tag that pushes rules of plain text over its symbol gives one of them and takes them back. -/
theorem gatherSections_within_of_neutral {p : Push} (hne : p.target ≠ []) (hpoint : '.' ∉ p.target)
    (hsplit : Alternatives.split c.settings.separator p.rules = rules) (hrules_ne : rules ≠ [])
    (hrules : ∀ rule ∈ rules, rule.Neutral)
    (hcap : c.settings.maxDepth.filter (· < depth) = none) (s : State α) {y : Yield α}
    (hy : gatherSections (expand c (levels + 1)) depth
      (scan (Push.within [p] p.target)).sections s = y) :
    y.halt = none ∧ rules[(s.source.index rules.length).1]? = some y.text ∧ y.problems = [] ∧
      y.state.source = (s.source.index rules.length).2 ∧
      ∀ name, y.state.symbols.stack name = s.symbols.stack name := by
  rw [Push.scan_within [p] p.target_ordinary hne] at hy
  let clause := Push.clauseOf [p] p.target
  obtain ⟨hsymbol, hmodifiers⟩ := Push.clauseOf_of_not_mem [p] hpoint
  let pushed := (s.enter clause.symbol).push .before p.target rules
  have hrun : runActions c (expand c (levels + 1)) depth clause s =
      ({ problems := [], state := pushed }, [p.target]) :=
    runActions_of_neutral hsplit hrules p.target s
  -- one of the rules is selected, and the tag gives it
  obtain ⟨rule, hrule, hselection⟩ :=
    Symbols.exists_select_push hrules_ne s.symbols c.fallbacks p.target s.source
  let selected : State α := { pushed with source := (s.source.index rules.length).2 }
  have hselect : pushed.select c clause.symbol = (some rule, [], selected) := by
    simp only [clause, hsymbol]
    simp only [State.select, pushed, State.push, State.enter, hselection]
    rfl
  have hneutral : rule.Neutral := hrules rule (List.mem_of_getElem? hrule)
  let o := resolve c (levelBelow c (levels + 1)) clause.symbol (tagNode depth [p] p.target [])
    pushed
  obtain ⟨htext, hproblems, hstate, hhalt⟩ :=
    resolve_of_neutral hcap hmodifiers hselect hneutral (show _ = o from rfl)
  obtain ⟨hyHalt, hyDone⟩ := (gatherSections_tag p.target_ordinary hne hrun hy).2 rfl o rfl
  obtain ⟨hyText, hyProblems, hyState⟩ := hyDone hhalt
  -- at its end the rules are on top of the stack
  have hstack : ∀ name, selected.symbols.stack name =
      if name = p.target then rules :: s.symbols.stack name else s.symbols.stack name :=
    Symbols.stack_push s.symbols p.target rules
  obtain ⟨hpop, hback⟩ := popAll_singleton .undo ((hstack p.target).trans (if_pos rfl))
  refine ⟨hyHalt.trans hhalt, ?_, ?_, ?_, fun name => ?_⟩
  · rw [hyText, htext, hrule]
  · rw [hyProblems, hproblems, hstate, hpop]
    rfl
  · rw [hyState, hstate]
    rfl
  · rw [hyState, hstate, hback, hstack]
    split_ifs with hname
    · rw [hname]
    · rfl

end Expansion

theorem Settings.levels_pos (s : Settings) : 0 < s.levels := by
  unfold levels
  split
  · exact Nat.zero_lt_succ _
  · decide

namespace Grammar

open Expansion

omit [Scalar α] in
theorem withState_state (g : Grammar α) : g.withState g.state = g := by
  cases g
  rfl

theorem expand_of_neutral (g : Grammar α) {rule : Text} (hrule : rule.Neutral)
    (keepEscapes : Bool) :
    let e := g.expand rule keepEscapes
    e.halt = none ∧ e.node.text = (if keepEscapes then rule else Escape.strip rule) ∧
      e.node.problems = (if rule = [] then [.emptyInput] else []) ∧ e.grammar = g := by
  obtain ⟨htext, hproblems, hstate, hhalt⟩ :=
    Expansion.expand_of_neutral (c := g.context) (Node.root rule) rfl rfl hrule g.settings.levels
      g.state
  intro e
  refine ⟨(halt_expand g rule keepEscapes).trans hhalt, ?_, ?_, ?_⟩
  · have hroot : (g.expandNode (.root rule)).node.text = rule := htext
    cases keepEscapes with
    | true => exact hroot
    | false => exact congrArg Escape.strip hroot
  · have hempty : (Node.root rule).problems = if rule = [] then [.emptyInput] else [] := by
      cases rule <;> rfl
    exact (problems_expand g rule keepEscapes).trans (hproblems.trans hempty)
  · have hgrammar : (g.expandNode (.root rule)).grammar = g.withState g.state :=
      congrArg g.withState hstate
    rw [grammar_expand, hgrammar, withState_state]

theorem expand_within_of_neutral (g : Grammar α) {p : Push} {rules : List Text}
    (hne : p.target ≠ []) (hpoint : '.' ∉ p.target)
    (hsplit : Alternatives.split g.settings.separator p.rules = rules) (hrules_ne : rules ≠ [])
    (hrules : ∀ rule ∈ rules, rule.Neutral)
    (hcap : ∀ cap, g.settings.maxDepth = some cap → 1 ≤ cap) :
    let e := g.expand (Push.within [p] p.target) true
    e.halt = none ∧ rules[(g.source.index rules.length).1]? = some e.node.text ∧
      e.node.problems = [] ∧ e.grammar.source = (g.source.index rules.length).2 ∧
      ∀ name, e.grammar.symbols.stack name = g.symbols.stack name := by
  have hwithin : Push.within [p] p.target ≠ [] := by simp [Push.within, Section.source]
  have hclean : (scan (Push.within [p] p.target)).problems = [] := by
    rw [Push.scan_within [p] p.target_ordinary hne]
  have huncapped : g.context.settings.maxDepth.filter (· < 1) = none := uncapped_of_depth_le hcap
  obtain ⟨levels, hlevels⟩ := Nat.exists_eq_add_one.2 g.settings.levels_pos
  let y := gatherSections (Expansion.expand g.context (levels + 1)) 1
    (scan (Push.within [p] p.target)).sections g.state
  obtain ⟨hhalt, htext, hproblems, hgrammar, -⟩ :=
    g.expand_eq_gatherSections hwithin (show _ = y by rw [hlevels])
  obtain ⟨hyHalt, hyText, hyProblems, hySource, hyStack⟩ :=
    gatherSections_within_of_neutral hne hpoint hsplit hrules_ne hrules huncapped g.state
      (show _ = y from rfl)
  intro e
  refine ⟨hhalt.trans hyHalt, hyText.trans (congrArg some htext.symm), ?_, ?_, fun name => ?_⟩
  · rw [hproblems, hclean, hyProblems, List.append_nil]
  · rw [hgrammar]
    exact hySource
  · rw [hgrammar]
    exact hyStack name

/-- **A text that is written literally comes out as it was.**  Pushed over a symbol with others, it
comes out where the symbol is selected, if it is the one of the index that is drawn; nothing else is
drawn, nothing is reported, and the pushed rules are those from before. By itself it comes out
without a draw, and nothing is reported but that it is empty, if it is. -/
theorem expand_literal (g : Grammar α) (hseparator : g.settings.separator ∉ ['#', '[', ']', '\\']) :
    (∀ (symbol : Text) (ts : List Text), symbol ≠ [] →
      (∀ c ∈ symbol, c ∉ ['#', '[', ']', '\\', '.', ':']) → ts ≠ [] →
      Text.join [g.settings.separator] (ts.map (Text.literal g.settings.separator)) ≠
        Action.popWord →
      (∀ cap, g.settings.maxDepth = some cap → 1 ≤ cap) →
      let e := g.expand (Text.oneOf g.settings.separator symbol ts) false
      e.halt = none ∧ ts[(g.source.index ts.length).1]? = some e.node.text ∧
        e.node.problems = [] ∧ e.grammar.source = (g.source.index ts.length).2 ∧
        ∀ name, e.grammar.symbols.stack name = g.symbols.stack name) ∧
      ∀ t, let e := g.expand (Text.literal g.settings.separator t) false
        e.halt = none ∧ e.node.text = t ∧
          e.node.problems = (if t = [] then [.emptyInput] else []) ∧ e.grammar = g := by
  let literal := Text.literal g.settings.separator
  have hneutral : ∀ t, (literal t).Neutral := Text.neutral_literal g.settings.separator
  refine ⟨fun symbol ts hne hsymbol hts hrules hcap => ?_, fun t => ?_⟩
  · let p := literalPush g.settings.separator symbol ts hsymbol hseparator hrules
    have hwithin : Text.oneOf g.settings.separator symbol ts = Push.within [p] symbol := by
      simp [Text.oneOf, Push.within, Push.action, Section.source, p, literalPush]
    have hpoint : '.' ∉ symbol := fun h => hsymbol '.' h (by simp)
    obtain ⟨hhalt, htext, hproblems, hsource, hstack⟩ :=
      g.expand_within_of_neutral (p := p) hne hpoint
        (Alternatives.split_join_literal hseparator hts) (List.map_eq_nil_iff.not.2 hts)
        (List.forall_mem_map.2 fun t _ => hneutral t) hcap
    -- the escape marks of the text that was selected go in the end
    rw [List.length_map, List.getElem?_map, Option.map_eq_some_iff] at htext
    obtain ⟨t, ht, hliteral⟩ := htext
    have hstripped : Escape.strip (g.expand (Push.within [p] p.target) true).node.text = t := by
      rw [← Text.strip_literal g.settings.separator t, hliteral]
    rw [List.length_map] at hsource
    rw [hwithin]
    exact ⟨hhalt, ht.trans (congrArg some hstripped.symm), hproblems, hsource, hstack⟩
  · obtain ⟨hhalt, htext, hproblems, hgrammar⟩ := g.expand_of_neutral (hneutral t) false
    simp only [literal, Text.literal_eq_nil] at hproblems
    exact ⟨hhalt, htext.trans (Text.strip_literal _ t), hproblems, hgrammar⟩

/-- The separator takes three bytes. One text is empty and the others are full of markup; the last
is the one that is drawn, and it would pop rules if it was read. -/
theorem expand_literal_markup :
    let g := { ofRules [("x", ["1"])] with
      settings := { maxDepth := some 1, separator := '→' }, source := .fixed 0.9 }
    let ts : List Text := ["\\\\#".toList, [], "→]\\[x:POP]".toList]
    let e := g.expand (Text.oneOf '→' ['x'] ts) false
    Text.oneOf '→' ['x'] ts = "#[x:\\\\\\\\\\#→→\\→\\]\\\\\\[x:POP\\]]x#".toList ∧
      e.halt = none ∧ e.node.text = "→]\\[x:POP]".toList ∧ e.node.problems = [] ∧
      (∀ name, e.grammar.symbols.stack name = g.symbols.stack name) ∧
      (g.expand (Text.literal '→' "\\→\\".toList) false).node.text = "\\→\\".toList := by
  intro g ts e
  obtain ⟨hpush, halone⟩ := expand_literal g (by decide)
  have hsymbol : ∀ c ∈ ['x'], c ∉ ['#', '[', ']', '\\', '.', ':'] :=
    List.forall_mem_singleton.2 (by decide)
  have hcap : ∀ cap, g.settings.maxDepth = some cap → 1 ≤ cap := by
    rintro cap ⟨⟩
    exact Nat.le_refl 1
  obtain ⟨hhalt, htext, hproblems, -, hstack⟩ :=
    hpush ['x'] ts (by decide) hsymbol (by decide) (by decide) hcap
  have hindex : (g.source.index ts.length).1 = 2 := by decide +kernel
  rw [hindex] at htext
  obtain ⟨-, halone, -⟩ := halone "\\→\\".toList
  exact ⟨by decide, hhalt, (Option.some.inj htext).symm, hproblems, hstack, halone⟩

end Grammar

end TextGrammar
