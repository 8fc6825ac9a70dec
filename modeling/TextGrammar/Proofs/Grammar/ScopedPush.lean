import TextGrammar.Proofs.Expansion.Resolve
import TextGrammar.Proofs.Grammar.Append
import TextGrammar.Proofs.Markup.Scoped

/-!
# Scoped pushes

Pushes in a tag hold until the end of the tag: `#[x:a][y:b]story#` is short for pushing, expanding
the tag and popping again, `[x:a][y:b]#story#[x:POP][y:POP]` (`Grammar.expand_within_eq_around`).

Both forms run the same actions at the same depth, in a tag and by themselves, and only the history
tells them apart. The tags then resolve the same symbol from states that differ in their history
only; the problems that one of them has already do not matter (`Expansion.resolve_frame`). What the
one takes back at its end the other pops behind it. After a halt the pushes are taken back in a tag,
but not by themselves, so the symbols may differ then.
-/

namespace TextGrammar

variable {α : Type}

namespace Expansion

variable {c : Context α} {levels depth : Nat} {s t : State α}

theorem runActions_snd_of_done {go : Expander α} {pushes : List Push} {clause : Text}
    (h : (runActions c go depth (Push.clauseOf pushes clause) s).1.halt = none) :
    (runActions c go depth (Push.clauseOf pushes clause) s).2 = pushes.map (·.target) := by
  rw [runActions, activateEach_snd_of_done h]
  simp only [Push.clauseOf, List.map_map, List.flatMap_map, Function.comp, Push.read_action,
    Action.undo?, Option.map_some, Action.target, Option.toList_some]
  exact List.map_eq_flatMap.symm

/-! ### States with the same symbols and source -/

/-- Two states that differ in their history only. -/
structure SameStore (s t : State α) : Prop where
  symbols : s.symbols = t.symbols
  source : s.source = t.source

theorem SameStore.symm (h : SameStore s t) : SameStore t s := ⟨h.symbols.symm, h.source.symm⟩

theorem SameStore.pop (h : SameStore s t) (scope scope' : Scope) (name : Text) :
    (s.pop scope name).1 = (t.pop scope' name).1 ∧
      SameStore (s.pop scope name).2 (t.pop scope' name).2 := by
  simp only [State.pop, h.symbols, true_and]
  exact ⟨rfl, h.source⟩

variable [Scalar α]

theorem sameStore_simulation (c : Context α) : Simulation c SameStore where
  enter h _ := ⟨h.symbols, h.source⟩
  push h _ _ _ := ⟨by simp only [State.push, h.symbols], h.source⟩
  pop_problems h _ _ := by simp only [State.pop, h.symbols]
  pop h _ _ := ⟨by simp only [State.pop, h.symbols], h.source⟩
  select_rule h _ := by simp only [State.select, h.symbols, h.source]
  select_problems h _ := by simp only [State.select, h.symbols, h.source]
  select h _ := ⟨h.symbols, by simp only [State.select, h.symbols, h.source]⟩

/-- The scope of an action goes into the history only. -/
theorem SameStore.activate (h : SameStore s t) (scope scope' : Scope) (action : Action)
    {a a' : Activation α}
    (ha : activate c (expand c levels) scope depth action s = a)
    (ha' : Expansion.activate c (expand c levels) scope' depth action t = a') :
    a.problems = a'.problems ∧ a.halt = a'.halt ∧ SameStore a.state a'.state := by
  subst ha ha'
  have hgo := (sameStore_simulation c).expand levels
  cases action with
  | pop target =>
    obtain ⟨hproblems, hstate⟩ := h.pop scope scope' target
    exact ⟨hproblems, rfl, hstate⟩
  | evaluate rule =>
    obtain ⟨hnodes, hhalt, hstate⟩ := agree_expandEach
      (fun x (_ : x ∈ [Node.nested depth rule]) => hgo x) h
    rw [activate_evaluate, activate_evaluate, hnodes]
    exact ⟨rfl, hhalt, hstate⟩
  | push target rules =>
    obtain ⟨hnodes, hhalt, hstate⟩ := agree_expandEach
      (fun x (_ : x ∈ alternatives c depth rules) => hgo x) h
    cases hs : (expandEach (expand c levels) (alternatives c depth rules) s).2.2 with
    | some halt =>
      rw [activate_push_of_halt hs, activate_push_of_halt (hhalt ▸ hs), hnodes]
      exact ⟨rfl, rfl, hstate⟩
    | none =>
      rw [activate_push_of_done hs, activate_push_of_done (hhalt ▸ hs), hnodes]
      exact ⟨rfl, rfl, by simp only [State.push, hstate.symbols], hstate.source⟩

/-! ### Actions by themselves -/

theorem expand_of_action (node : Node) (hexp : node.expanded = false) (hkind : node.kind = .action)
    (s : State α) {done : Activation α}
    (hdone : activate c (expand c levels) .bare node.depth (Action.read node.raw) s = done) :
    expand c levels node s =
      { node := { node with expanded := true }.report done.problems
        state := done.state
        halt := done.halt } := by
  rw [expand_eq, expandWith_of_action hexp hkind hdone]

theorem gatherSections_actions {xs : List Section} (hxs : ∀ x ∈ xs, x.kind = .action)
    (h : SameStore s t) {y : Yield α}
    (hy : gatherSections (expand c levels) depth xs s = y) {a : Activation α}
    (ha : (activateEach c (expand c levels) depth (xs.map fun x => Action.read x.raw) t).1 = a) :
    y.halt = a.halt ∧
      (y.halt = none → y.text = [] ∧ y.problems = a.problems ∧ SameStore y.state a.state) := by
  subst hy ha
  induction xs generalizing s t with
  | nil => exact ⟨rfl, fun _ => ⟨rfl, rfl, h⟩⟩
  | cons x xs ih =>
    obtain ⟨hx, hxs⟩ := List.forall_mem_cons.1 hxs
    let first := activate c (expand c levels) .bare depth (Action.read x.raw) s
    have hnode := expand_of_action { raw := x.raw, kind := x.kind, depth, index := 0 } rfl hx s
      (show _ = first from rfl)
    obtain ⟨hproblems, hhalt, hstate⟩ := h.activate .bare .before (Action.read x.raw)
      (show _ = first from rfl) rfl
    rw [List.map_cons]
    cases hfirst : first.halt with
    | some halt =>
      rw [gatherSections_cons_of_halt hnode hfirst, activateEach_cons_of_halt (hhalt ▸ hfirst)]
      exact ⟨rfl, nofun⟩
    | none =>
      obtain ⟨hrest, hdone⟩ := ih hxs hstate
      rw [gatherSections_cons_of_done hnode hfirst,
        activateEach_cons_of_done (hhalt ▸ hfirst) rfl]
      refine ⟨hrest, fun hy => ?_⟩
      obtain ⟨htext, hproblems', hstate'⟩ := hdone hy
      refine ⟨htext, ?_, hstate'⟩
      change first.problems ++ _ = _
      rw [hproblems, hproblems']

theorem gatherSections_undos (pushes : List Push) (h : SameStore s t) {y : Yield α}
    (hy : gatherSections (expand c levels) depth (pushes.map Push.undo) s = y) :
    y.halt = none ∧ y.text = [] ∧
      y.problems = (t.popAll .undo (pushes.map (·.target))).1 ∧
      SameStore y.state (t.popAll .undo (pushes.map (·.target))).2 := by
  subst hy
  induction pushes generalizing s t with
  | nil => exact ⟨rfl, rfl, rfl, h⟩
  | cons p pushes ih =>
    have hpop : activate c (expand c levels) .bare depth (Action.read p.undo.raw) s =
        { problems := (s.pop .bare p.target).1, state := (s.pop .bare p.target).2 } := by
      rw [p.read_undo, activate_pop]
    have hnode := expand_of_action { raw := p.undo.raw, kind := .action, depth, index := 0 } rfl rfl
      s hpop
    obtain ⟨hproblems, hstate⟩ := h.pop .bare .undo p.target
    obtain ⟨hhalt, htext, hrest, hstate'⟩ := ih hstate
    rw [List.map_cons, gatherSections_cons_of_done hnode rfl]
    refine ⟨hhalt, htext, ?_, hstate'⟩
    change (s.pop .bare p.target).1 ++ _ = (t.pop .undo p.target).1 ++ _
    rw [hproblems, hrest]
    rfl

/-! ### Tags -/

/-- Tags that differ in their problems only resolve alike from related states. -/
theorem Simulation.resolve {R : State α → State α → Prop} (hR : Simulation c R) (h : R s t)
    {node node' : Node} (hdepth : node.depth = node'.depth) (htext : node.text = node'.text)
    (hmodifiers : node.modifiers = node'.modifiers) {raw : Text} {clause : Tag.Clause}
    (hread : Tag.read raw = .clause clause) {o o' : Outcome α}
    (ho : Expansion.resolve c (levelBelow c levels) clause.symbol node s = o)
    (ho' : Expansion.resolve c (levelBelow c levels) clause.symbol node' t = o') :
    ∃ found, o.node.problems = node.problems ++ found ∧
      o'.node.problems = node'.problems ++ found ∧ o.node.text = o'.node.text ∧
      o.halt = o'.halt ∧ R o.state o'.state := by
  subst ho ho'
  have hbelow : ∀ x s t, R s t → Agree R (levelBelow c levels x s) (levelBelow c levels x t) := by
    intro x s t h
    cases levels with
    | zero => exact ⟨rfl, rfl, h⟩
    | succ levels => exact hR.expand levels x s t h
  obtain ⟨hnode, hhalt, hstate⟩ := (hR.holds.resolve node' trivial hread
    (fun _ _ x _ _ s t h => (hbelow x s t h).meets) h).agree
  obtain ⟨found, hfound, hfound', htexts, hstates, hhalts⟩ :=
    resolve_frame c (levelBelow c levels) hdepth htext hmodifiers clause.symbol s
  refine ⟨found, hfound, ?_, ?_, hhalts.trans hhalt, ?_⟩
  · rw [← hnode, hfound']
  · rw [htexts, hnode]
  · rw [hstates]
    exact hstate

theorem gatherSections_singleton {x : Section} {o : Outcome α} {y : Yield α}
    (ho : expand c levels { raw := x.raw, kind := x.kind, depth, index := 0 } s = o)
    (hy : gatherSections (expand c levels) depth [x] s = y) :
    y.halt = o.halt ∧
      (o.halt = none →
        y.text = o.node.text ∧ y.problems = o.node.problems ∧ y.state = o.state) := by
  subst hy
  cases h : o.halt with
  | some halt =>
    rw [gatherSections_cons_of_halt ho h]
    exact ⟨rfl, nofun⟩
  | none =>
    rw [gatherSections_cons_of_done ho h]
    exact ⟨rfl, fun _ => ⟨List.append_nil _, List.append_nil _, rfl⟩⟩

/-- The tag with these pushes before its clause, once its actions have recorded these problems. -/
def tagNode (depth : Nat) (pushes : List Push) (clause : Text) (problems : List Diagnostic) :
    Node :=
  { raw := pushes.flatMap (·.action.source) ++ clause
    kind := .tag
    depth
    index := 0
    expanded := true
    symbol := some (Push.clauseOf pushes clause).symbol
    modifiers := (Push.clauseOf pushes clause).modifiers
    problems }

theorem gatherSections_tag {pushes : List Push} {clause : Text} (hclause : clause.Ordinary)
    (hne : clause ≠ []) {before : Activation α} {undos : List Text}
    (hrun : runActions c (expand c levels) depth (Push.clauseOf pushes clause) s = (before, undos))
    {y : Yield α}
    (hy : gatherSections (expand c levels) depth
      [⟨.tag, pushes.flatMap (·.action.source) ++ clause⟩] s = y) :
    (∀ halt, before.halt = some halt → y.halt = some halt) ∧
      (before.halt = none → ∀ o, Expansion.resolve c (levelBelow c levels)
          (Push.clauseOf pushes clause).symbol (tagNode depth pushes clause before.problems)
          before.state = o →
        y.halt = o.halt ∧
          (o.halt = none →
            y.text = o.node.text ∧ y.problems = o.node.problems ++ (o.state.popAll .undo undos).1 ∧
              y.state = (o.state.popAll .undo undos).2)) := by
  let tag : Node :=
    { raw := pushes.flatMap (·.action.source) ++ clause, kind := .tag, depth, index := 0 }
  let started : Node := { tag with expanded := true }
  have hread : Tag.read started.raw = .clause (Push.clauseOf pushes clause) :=
    Push.read_within pushes hclause hne
  have htag : expand c levels tag s =
      expandTag c (expand c levels) (levelBelow c levels) started s := by
    rw [expand_eq, expandWith_of_tag rfl rfl]
  obtain ⟨hhalt, hdone⟩ := gatherSections_singleton (o := expand c levels tag s) rfl hy
  refine ⟨fun halt hb => ?_, fun hb o ho => ?_⟩
  · rw [hhalt, htag, expandTag_of_halt hread hrun hb]
    rfl
  · have hnode : (enterClause started (Push.clauseOf pushes clause)).report before.problems =
        tagNode depth pushes clause before.problems := rfl
    rw [htag, expandTag_of_done hread hrun hb, hnode, ho] at hhalt hdone
    exact ⟨hhalt, hdone⟩

/-- A tag and the pops behind it give what a tag gives that has the pushes before its clause, once
these have run: the problems that they have recorded come before those of the tag. -/
theorem gatherSections_tag_undos (pushes : List Push) {clause : Text} (hclause : clause.Ordinary)
    (hne : clause ≠ []) (h : SameStore s t) {ds : List Diagnostic} {o : Outcome α}
    (ho : Expansion.resolve c (levelBelow c levels) (Push.clauseOf pushes clause).symbol
      (tagNode depth pushes clause ds) s = o) {y : Yield α}
    (hy : gatherSections (expand c levels) depth ([⟨.tag, clause⟩] ++ pushes.map Push.undo) t = y) :
    y.halt = o.halt ∧
      (o.halt = none →
        y.text = o.node.text ∧
          ds ++ y.problems =
            o.node.problems ++ (o.state.popAll .undo (pushes.map (·.target))).1 ∧
          SameStore y.state (o.state.popAll .undo (pushes.map (·.target))).2) := by
  let symbol := (Push.clauseOf pushes clause).symbol
  let o' := Expansion.resolve c (levelBelow c levels) symbol (tagNode depth [] clause [])
    (t.enter symbol)
  have ho' : Expansion.resolve c (levelBelow c levels) symbol (tagNode depth [] clause [])
      (t.enter symbol) = o' := rfl
  have hstore : SameStore s (t.enter symbol) := ⟨h.symbols, h.source⟩
  have hdepth : (tagNode depth pushes clause ds).depth = (tagNode depth [] clause []).depth := rfl
  obtain ⟨found, hfound, hfound', htexts, hhalts, hstates⟩ :=
    (sameStore_simulation c).resolve hstore hdepth rfl rfl (Push.read_within pushes hclause hne) ho
      ho'
  -- the tag has nothing before its clause, so there is nothing to take back at its end
  let tag := gatherSections (expand c levels) depth [⟨.tag, clause⟩] t
  have hrun : runActions c (expand c levels) depth (Push.clauseOf [] clause) t =
      (⟨[], t.enter symbol, none⟩, []) := rfl
  obtain ⟨htagHalt, htagDone⟩ :=
    (gatherSections_tag hclause hne hrun (show _ = tag from rfl)).2 rfl o' rfl
  cases hdone : o.halt with
  | some halt =>
    have htag : tag.halt = some halt := by rw [htagHalt, ← hhalts, hdone]
    rw [gatherSections_append_of_halt htag] at hy
    exact ⟨hy ▸ htag, nofun⟩
  | none =>
    have htag : tag.halt = none := by rw [htagHalt, ← hhalts, hdone]
    obtain ⟨htagText, htagProblems, htagState⟩ := htagDone (hhalts ▸ hdone)
    have hback : SameStore tag.state o.state := by
      rw [htagState]
      exact hstates.symm
    obtain ⟨hhalt, htext, hproblems, hstate⟩ := gatherSections_undos pushes hback rfl
    rw [gatherSections_append_of_done (show _ = tag from rfl) htag] at hy
    subst hy
    refine ⟨hhalt, fun _ => ⟨?_, ?_, hstate⟩⟩
    · rw [htext, htagText, List.append_nil, htexts]
    · rw [hproblems, htagProblems, hfound', hfound]
      simp [State.popAll, tagNode]

/-- **The sections of both forms give the same.** -/
theorem gatherSections_within_around (pushes : List Push) {clause : Text}
    (hclause : clause.Ordinary) (hne : clause ≠ []) {y y' : Yield α}
    (hy : gatherSections (expand c levels) depth (scan (Push.within pushes clause)).sections s = y)
    (hy' : gatherSections (expand c levels) depth (scan (Push.around pushes clause)).sections s =
      y') :
    y.halt = y'.halt ∧
      (y.halt = none →
        y.text = y'.text ∧ y.problems = y'.problems ∧ SameStore y.state y'.state) := by
  rw [Push.scan_within pushes hclause hne] at hy
  rw [Push.scan_around pushes hclause hne, List.append_assoc] at hy'
  let here := Push.clauseOf pushes clause
  rcases hrun : runActions c (expand c levels) depth here s with ⟨before, undos⟩
  obtain ⟨hyHalt, hyDone⟩ := gatherSections_tag hclause hne hrun hy
  -- the actions by themselves
  let acts := gatherSections (expand c levels) depth (pushes.map Push.action) s
  have hkind : ∀ x ∈ pushes.map Push.action, x.kind = .action := by simp [Push.action]
  have hstart : SameStore s (s.enter here.symbol) := ⟨rfl, rfl⟩
  obtain ⟨hactsHalt, hactsDone⟩ :=
    gatherSections_actions hkind hstart (show _ = acts from rfl) (congrArg Prod.fst hrun)
  cases hb : before.halt with
  | some halt =>
    have hacts : acts.halt = some halt := hactsHalt.trans hb
    rw [gatherSections_append_of_halt hacts] at hy'
    refine ⟨(hyHalt halt hb).trans (hy' ▸ hacts.symm), fun h => ?_⟩
    rw [hyHalt halt hb] at h
    cases h
  | none =>
    have hacts : acts.halt = none := hactsHalt.trans hb
    obtain ⟨htext, hproblems, hstate⟩ := hactsDone hacts
    obtain rfl : undos = pushes.map (·.target) := by
      have hundos := runActions_snd_of_done ((congrArg (·.1.halt) hrun).trans hb)
      rwa [hrun] at hundos
    let o := Expansion.resolve c (levelBelow c levels) here.symbol
      (tagNode depth pushes clause before.problems) before.state
    obtain ⟨hyHalt, hyDone⟩ := hyDone hb o rfl
    have hstore : SameStore before.state acts.state := hstate.symm
    obtain ⟨hrestHalt, hrestDone⟩ :=
      gatherSections_tag_undos pushes hclause hne hstore (show _ = o from rfl) rfl
    rw [gatherSections_append_of_done (show _ = acts from rfl) hacts] at hy'
    subst hy'
    refine ⟨hyHalt.trans hrestHalt.symm, fun h => ?_⟩
    have hdone : o.halt = none := hyHalt.symm.trans h
    obtain ⟨hyText, hyProblems, hyState⟩ := hyDone hdone
    obtain ⟨hrestText, hrestProblems, hrestState⟩ := hrestDone hdone
    refine ⟨?_, ?_, ?_⟩
    · rw [hyText, htext, hrestText, List.nil_append]
    · rw [hyProblems, hproblems, hrestProblems]
    · rw [hyState]
      exact hrestState.symm

end Expansion

/-! ### Rules -/

namespace Grammar

variable [Scalar α]

open Expansion

theorem text_expand_congr {g : Grammar α} {rule rule' : Text}
    (h : (g.expand rule true).node.text = (g.expand rule' true).node.text) (keepEscapes : Bool) :
    (g.expand rule keepEscapes).node.text = (g.expand rule' keepEscapes).node.text := by
  simp only [node_expand, if_true] at h
  cases keepEscapes with
  | true => simpa only [node_expand, if_true] using h
  | false => simp only [node_expand, Bool.false_eq_true, if_false, Node.stripEscapes, h]

/-- **Scoped pushes.**  Pushes in a tag do what the same pushes do before the tag with as many pops
behind it: from any grammar both expansions halt for the same reason, or both end with the same
text, the same diagnostics in the same order, and the same grammar left behind, where the same
values have been drawn. -/
theorem expand_within_eq_around (g : Grammar α) (pushes : List Push) {clause : Text}
    (hclause : clause.Ordinary) (hne : clause ≠ []) (keepEscapes : Bool) :
    let within := g.expand (Push.within pushes clause) keepEscapes
    let around := g.expand (Push.around pushes clause) keepEscapes
    within.halt = around.halt ∧
      (within.halt = none →
        within.node.text = around.node.text ∧ within.node.problems = around.node.problems ∧
          within.grammar = around.grammar) := by
  have hwithin : Push.within pushes clause ≠ [] := by
    simp [Push.within, Section.source]
  have haround : Push.around pushes clause ≠ [] := by
    simp [Push.around, Section.source]
  let sections (rule : Text) : Yield α :=
    gatherSections (Expansion.expand g.context g.settings.levels) 1 (scan rule).sections g.state
  obtain ⟨hhalt, htext, hproblems, hgrammar, -⟩ :=
    g.expand_eq_gatherSections hwithin (y := sections _) rfl
  obtain ⟨hhalt', htext', hproblems', hgrammar', -⟩ :=
    g.expand_eq_gatherSections haround (y := sections _) rfl
  obtain ⟨hsame, hdone⟩ := gatherSections_within_around pushes hclause hne
    (show sections _ = sections _ from rfl) (show sections _ = sections _ from rfl)
  have hclean : (scan (Push.within pushes clause)).problems = [] := by
    rw [Push.scan_within pushes hclause hne]
  have hclean' : (scan (Push.around pushes clause)).problems = [] := by
    rw [Push.scan_around pushes hclause hne]
  rw [hclean, List.nil_append] at hproblems
  rw [hclean', List.nil_append] at hproblems'
  intro within around
  have hunstripped : within.halt = (g.expand (Push.within pushes clause) true).halt := by
    rw [halt_expand, halt_expand]
  refine ⟨?_, fun h => ?_⟩
  · rw [hunstripped, hhalt, hsame, ← hhalt', halt_expand, halt_expand]
  · obtain ⟨htexts, hfound, hstate⟩ := hdone (hhalt.symm.trans (hunstripped.symm.trans h))
    refine ⟨text_expand_congr (by rw [htext, htext', htexts]) keepEscapes, ?_, ?_⟩
    · rw [problems_expand] at hproblems hproblems' ⊢
      rw [problems_expand, hproblems, hproblems', hfound]
    · rw [grammar_expand] at hgrammar hgrammar' ⊢
      rw [grammar_expand, hgrammar, hgrammar', withState, withState, hstate.symbols, hstate.source]

/-- Evaluating the first push leaks a push from inside of its brackets. The second one hides that
until it is popped. The modifier is missing. -/
theorem expand_within_eq_around_leaked :
    let g := ofRules [("y", ["1"]), ("z", ["2"])]
    let pushes : List Push :=
      [⟨"x".toList, "a,[y:9]#z#".toList, by decide, by decide, by decide, by decide⟩,
        ⟨"y".toList, "<#z#>".toList, by decide, by decide, by decide, by decide⟩]
    let clause : Text := "y.m".toList
    let within := g.expand (Push.within pushes clause) false
    let around := g.expand (Push.around pushes clause) false
    Push.within pushes clause = "#[x:a,[y:9]#z#][y:<#z#>]y.m#".toList ∧
      Push.around pushes clause = "[x:a,[y:9]#z#][y:<#z#>]#y.m#[x:POP][y:POP]".toList ∧
      within.node.text = "<2>((.m))".toList ∧ around.node.text = "<2>((.m))".toList ∧
      within.node.problems = around.node.problems ∧ within.grammar = around.grammar := by
  intro g pushes clause within around
  have hclause : clause.Ordinary := by decide
  obtain ⟨-, hdone⟩ := g.expand_within_eq_around pushes hclause (by decide) false
  obtain ⟨htext, hproblems, hgrammar⟩ := hdone (by decide +kernel)
  have hfinished : within.node.text = "<2>((.m))".toList := by decide +kernel
  exact ⟨by decide, by decide, hfinished, htext.symm.trans hfinished, hproblems, hgrammar⟩

end Grammar

end TextGrammar
