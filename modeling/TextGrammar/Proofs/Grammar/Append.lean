import TextGrammar.Proofs.Expansion.Gather
import TextGrammar.Proofs.Grammar.Runs

/-!
# Expanding one text after another

A text that leaves nothing open can be expanded on its own before what follows it: the two
expansions one after the other do what the expansion of the whole does (`Grammar.expand_append`).
The second one may be of any text, and it begins with the symbols and the source that the first has
left; only its history begins anew, which no expansion looks at (`Expansion.later_simulation`).
-/

namespace TextGrammar

variable {α : Type} [Scalar α]

namespace Expansion

/-- `s` is the state `t` with a history before it. -/
structure Later (history : List Event) (s t : State α) : Prop where
  symbols : s.symbols = t.symbols
  source : s.source = t.source
  trace : s.trace = t.trace ++ history

theorem later_simulation (c : Context α) (history : List Event) :
    Simulation c (Later history) where
  enter h symbol := ⟨h.symbols, h.source, by simp only [State.enter, h.trace, List.cons_append]⟩
  push h scope name rules := by
    refine ⟨?_, h.source, ?_⟩
    · simp only [State.push, h.symbols]
    · simp only [State.push, h.trace, List.cons_append]
  pop_problems h scope name := by simp only [State.pop, h.symbols]
  pop h scope name := by
    refine ⟨?_, h.source, ?_⟩
    · simp only [State.pop, h.symbols]
    · simp only [State.pop, h.trace, List.cons_append]
  select_rule h name := by simp only [State.select, h.symbols, h.source]
  select_problems h name := by simp only [State.select, h.symbols, h.source]
  select h name := by
    refine ⟨h.symbols, ?_, h.trace⟩
    simp only [State.select, h.symbols, h.source]

end Expansion

namespace Grammar

open Expansion

theorem expand_eq_gatherSections (g : Grammar α) {rule : Text} (hrule : rule ≠ []) {y : Yield α}
    (hy : gatherSections (Expansion.expand g.context g.settings.levels) 1 (scan rule).sections
      g.state = y) :
    (g.expand rule true).halt = y.halt ∧ (g.expand rule true).node.text = y.text ∧
      (g.expand rule true).node.problems = (scan rule).problems ++ y.problems ∧
      (g.expand rule true).grammar = g.withState y.state ∧
      (g.expand rule true).trace = y.state.trace.reverse := by
  obtain ⟨htext, hproblems, hstate, hhalt⟩ :=
    expand_of_unparsed (Node.root rule) rfl rfl g.settings.levels g.state hy
  rw [Node.problems_root hrule, List.nil_append] at hproblems
  exact ⟨hhalt, htext, hproblems, congrArg g.withState hstate,
    congrArg (·.trace.reverse) hstate⟩

/-- In a grammar that goes on with a state the history of that state comes before as well. -/
theorem expand_withState (g : Grammar α) (s : State α) {rule : Text} (hrule : rule ≠ [])
    {y : Yield α}
    (hy : gatherSections (Expansion.expand g.context g.settings.levels) 1 (scan rule).sections s =
      y) :
    ((g.withState s).expand rule true).halt = y.halt ∧
      ((g.withState s).expand rule true).node.text = y.text ∧
      ((g.withState s).expand rule true).node.problems = (scan rule).problems ++ y.problems ∧
      ((g.withState s).expand rule true).grammar = g.withState y.state ∧
      s.trace.reverse ++ ((g.withState s).expand rule true).trace = y.state.trace.reverse := by
  obtain ⟨hhalt, htext, hproblems, hgrammar, htrace⟩ :=
    (g.withState s).expand_eq_gatherSections hrule rfl
  have hlater : Later s.trace s (g.withState s).state := ⟨rfl, rfl, (List.nil_append _).symm⟩
  obtain ⟨htext', hproblems', hhalt', hstate⟩ :=
    (later_simulation g.context s.trace).gatherSections hlater (scan rule).sections hy rfl
  rw [htext', hproblems', hhalt', hstate.trace, List.reverse_append]
  refine ⟨hhalt, htext, hproblems, hgrammar.trans ?_, congrArg (s.trace.reverse ++ ·) htrace⟩
  simp only [withState, hstate.symbols, hstate.source]
  rfl

/-- **Sequential composition.**  If `a` leaves no tag, no bracket and no escape mark open, expanding
`a ++ b` is expanding `a` and then `b` with what `a` has left. If the first halts, so does the
whole, with the same left behind; otherwise the whole ends as the second does. The text is that of
both, and so are the diagnostics up to their order, where the offsets that the scan of `b` reports
count from the start of `a`. -/
theorem expand_append (g : Grammar α) {a b : Text} (ha : a ≠ []) (hb : b ≠ [])
    (htag : .unclosedTag ∉ (scan a).problems) (hopen : .tooManyOpen ∉ (scan a).problems)
    (hclose : .tooManyClose ∉ (scan a).problems) (hescape : Escape.isOpen a = false) :
    let first := g.expand a true
    let second := first.grammar.expand b true
    let whole := g.expand (a ++ b) true
    (∀ halt, first.halt = some halt →
        whole.halt = some halt ∧ whole.grammar = first.grammar ∧ whole.trace = first.trace) ∧
      (first.halt = none →
        whole.halt = second.halt ∧ whole.grammar = second.grammar ∧
          whole.trace = first.trace ++ second.trace ∧
          whole.node.text = first.node.text ++ second.node.text ∧
          ∃ below, second.node.problems = (scan b).problems ++ below ∧
            whole.node.problems.Perm (first.node.problems ++
              ((scan b).problems.map (.shift a.byteLength) ++ below))) := by
  intro first second whole
  obtain ⟨before, last, start, later, hscanA, hscanB, hscanAB, hproblems⟩ :=
    scan_append (Nesting.after_eq_start htag hopen hclose hescape) b
  have hab : a ++ b ≠ [] := List.append_ne_nil_of_left_ne_nil ha b
  let go := Expansion.expand g.context g.settings.levels
  let y := gatherSections go 1 (before ++ Section.ofPlain last) g.state
  obtain ⟨hhalt, htext, hds, hgrammar, htrace⟩ :=
    g.expand_eq_gatherSections ha (y := y) (by rw [hscanA])
  refine ⟨fun halt h => ?_, fun h => ?_⟩
  · have hy : y.halt = some halt := hhalt.symm.trans h
    obtain ⟨hhalt', -, -, hgrammar', htrace'⟩ := g.expand_eq_gatherSections hab (y := y)
      (by rw [hscanAB]; exact gatherSections_border_of_halt hy)
    exact ⟨hhalt'.trans hy, hgrammar'.trans hgrammar.symm, htrace'.trans htrace.symm⟩
  · have hy : y.halt = none := hhalt.symm.trans h
    -- on its own the second text goes on with what the first has left
    have hsecond : second = (g.withState y.state).expand b true :=
      congrArg (fun g : Grammar α => g.expand b true) hgrammar
    let u := gatherSections go 1 (Section.ofPlain start ++ later) y.state
    obtain ⟨hhaltB, htextB, hdsB, hgrammarB, htraceB⟩ :=
      g.expand_withState y.state hb (y := u) (by rw [hscanB])
    have hwhole : gatherSections go 1 (scan (a ++ b)).sections g.state =
        ⟨y.text ++ u.text, y.problems ++ u.problems, u.state, u.halt⟩ := by
      rw [hscanAB]
      exact gatherSections_border_of_done rfl hy rfl
    obtain ⟨hhaltAB, htextAB, hdsAB, hgrammarAB, htraceAB⟩ := g.expand_eq_gatherSections hab hwhole
    rw [hsecond]
    refine ⟨hhaltAB.trans hhaltB.symm, hgrammarAB.trans hgrammarB.symm, ?_, ?_, u.problems, hdsB,
      ?_⟩
    · rw [htraceAB, ← htraceB, htrace]
    · rw [htextAB, htextB, htext]
    · rw [hdsAB, hds, hproblems, List.append_assoc, List.append_assoc]
      exact (List.perm_append_comm_assoc _ _ _).append_left _

/-- The first text closes a bracket before it opens one, and the second closes one too many. -/
theorem expand_append_malformed :
    let g := ofRules [("x", ["1"])]
    let a : Text := "]u[#x#v".toList
    let b : Text := "w##[y:2]#x#]".toList
    (g.expand a true).halt = none ∧ (g.expand (a ++ b) true).node.text = "]u[1vw1]".toList ∧
      (g.expand (a ++ b) true).grammar = ((g.expand a true).grammar.expand b true).grammar ∧
      ∃ below,
        ((g.expand a true).grammar.expand b true).node.problems = (scan b).problems ++ below ∧
        (g.expand (a ++ b) true).node.problems.Perm
          ((g.expand a true).node.problems ++ ([.emptyTag 9, .tooManyClose] ++ below)) := by
  intro g a b
  have hdone : (g.expand a true).halt = none := by decide +kernel
  obtain ⟨-, hgrammar, -, -, below, hsecond, hwhole⟩ :=
    (expand_append g (a := a) (b := b) (by decide) (by decide) (by decide +kernel)
      (by decide +kernel) (by decide +kernel) (by decide +kernel)).2 hdone
  have hshift : (scan b).problems.map (Diagnostic.shift a.byteLength) =
      [.emptyTag 9, .tooManyClose] := by decide +kernel
  rw [hshift] at hwhole
  exact ⟨hdone, by decide +kernel, hgrammar, below, hsecond, hwhole⟩

end Grammar

end TextGrammar
