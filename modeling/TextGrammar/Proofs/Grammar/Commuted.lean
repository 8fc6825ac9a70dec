import TextGrammar.Proofs.Expansion.Derivation
import TextGrammar.Proofs.Expansion.Follow
import TextGrammar.Proofs.Grammar.Literal
import TextGrammar.Proofs.Grammar.Operations
import TextGrammar.Proofs.Markup.Permuted

/-!
# Pushes of a tag in another order

The pushes before the clause of a tag may change places, if they push texts that stand for themselves
over different symbols (`Grammar.expand_reordered`). Two things depend on their order: where a symbol
that a push makes comes in the table, and which stack is popped first when the tag ends, after the
rule of its symbol has done to them what it liked.

Neither is seen by an expansion. It looks a symbol up by its name, so tables in which the same is
found under every name are as good as each other (`Expansion.shuffled_simulation`); and pushes over
different symbols, like pops, leave under every name what can be told without their order
(`Symbols.find?` after `State.pushAll` and `State.popAll`). What the order does decide is that of the
reports of pops that have failed.
-/

namespace TextGrammar

variable {α : Type}

/-! ### Tables in another order -/

namespace Symbols

variable {t u v : Symbols α}

theorem names_clear (t : Symbols α) : t.clear.names = t.names := Named.names_mapValues _ _

theorem Extends.exists_names (h : t.Extends u) : ∃ new, u.names = t.names ++ new := by
  obtain ⟨added, heq, -⟩ := h
  refine ⟨added.map (·.1), ?_⟩
  rw [← names_clear u, ← names_clear t, Named.names, heq, List.map_append]
  rfl

/-- Of a table that is extended in two ways in which the same is found, at most the new names are in
another order. -/
theorem Extends.exists_names_perm (hu : t.Extends u) (hv : t.Extends v)
    (h : ∀ name, u.find? name = v.find? name) :
    ∃ new new', u.names = t.names ++ new ∧ v.names = t.names ++ new' ∧ new.Perm new' ∧
      ∀ name ∈ new, ∃ s : Store α, u.find? name = some s ∧ s.dynamic = true := by
  obtain ⟨new, hnew⟩ := hu.exists_names
  obtain ⟨new', hnew'⟩ := hv.exists_names
  have hmem : ∀ name, name ∈ u.names ↔ name ∈ v.names := fun name => by
    rw [← not_iff_not, ← Named.find?_eq_none, ← Named.find?_eq_none, h]
  have hall : u.names.Perm v.names := (List.perm_ext_iff_of_nodup u.nodup v.nodup).2 hmem
  rw [hnew, hnew', List.perm_append_left_iff] at hall
  refine ⟨new, new', hnew, hnew', hall, fun name hname => ?_⟩
  have hin : name ∈ u.names := hnew ▸ List.mem_append_right _ hname
  obtain ⟨s, hs⟩ := Option.ne_none_iff_exists'.1 fun hnone => Named.find?_eq_none.1 hnone hin
  have hnodup : (t.names ++ new).Nodup := hnew ▸ u.nodup
  have hout : t.find? name = none :=
    Named.find?_eq_none.2 fun hold => (List.nodup_append.1 hnodup).2.2 name hold name hname rfl
  exact ⟨s, hs, (hu.new hout hs).1⟩

end Symbols

namespace Expansion

/-- Under every name the same is found in both states. -/
structure Shuffled (s t : State α) : Prop where
  find? : ∀ name, s.symbols.find? name = t.symbols.find? name
  source : s.source = t.source

namespace Shuffled

variable {s t : State α}

theorem store (h : Shuffled s t) (name : Text) : s.symbols.store name = t.symbols.store name := by
  rw [Symbols.store, Symbols.store, h.find?]

theorem stack (h : Shuffled s t) (name : Text) : s.symbols.stack name = t.symbols.stack name := by
  rw [Symbols.stack, Symbols.stack, h.find?]

end Shuffled

/-- The order of a table is not seen. -/
theorem shuffled_simulation [Scalar α] (c : Context α) : Simulation c Shuffled where
  enter h _ := ⟨h.find?, h.source⟩
  push h _ _ _ := ⟨fun _ => by simp only [State.push, Symbols.find?_push, h.find?], h.source⟩
  pop_problems h _ _ := by simp only [State.pop, Symbols.pop_fst, h.stack]
  pop h _ _ := ⟨fun _ => by simp only [State.pop, Symbols.find?_pop, h.find?], h.source⟩
  select_rule h name := by
    simp only [State.select, h.source, Symbols.select_congr (h.store name)]
  select_problems h name := by
    simp only [State.select, h.source, Symbols.select_congr (h.store name)]
  select h name :=
    ⟨h.find?, by simp only [State.select, h.source, Symbols.select_congr (h.store name)]⟩

/-! ### Pushes and pops one after the other -/

/-- Push rules over one symbol after the other. -/
def State.pushAll (s : State α) (scope : Scope) (pushes : List (Text × List Text)) : State α :=
  pushes.foldl (fun s p => s.push scope p.1 p.2) s

variable {s t : State α} {scope : Scope} {pushes pushes' : List (Text × List Text)}
  {names names' : List Text}

theorem State.source_pushAll (s : State α) (scope : Scope) (pushes : List (Text × List Text)) :
    (s.pushAll scope pushes).source = s.source := by
  induction pushes generalizing s with
  | nil => rfl
  | cons p pushes ih => exact ih (s.push scope p.1 p.2)

theorem State.find?_pushAll_of_not_mem {key : Text} (h : key ∉ pushes.map (·.1)) :
    (s.pushAll scope pushes).symbols.find? key = s.symbols.find? key := by
  induction pushes generalizing s with
  | nil => rfl
  | cons p pushes ih =>
    simp only [List.map_cons, List.mem_cons, not_or] at h
    obtain ⟨hkey, h⟩ := h
    have hpush : (s.push scope p.1 p.2).symbols.find? key = s.symbols.find? key := by
      simp only [State.push, Symbols.find?_push, if_neg hkey]
    exact (ih h).trans hpush

theorem State.find?_pushAll_of_mem (hdistinct : (pushes.map (·.1)).Nodup) {key : Text}
    {rules : List Text} (h : (key, rules) ∈ pushes) :
    (s.pushAll scope pushes).symbols.find? key =
      some (((s.symbols.find? key).map (·.push rules)).getD (.pushed key rules)) := by
  induction pushes generalizing s with
  | nil => cases h
  | cons p pushes ih =>
    obtain ⟨hfirst, hdistinct⟩ := List.nodup_cons.1 hdistinct
    rcases List.mem_cons.1 h with rfl | h
    · have hpush : (s.push scope key rules).symbols.find? key =
          some (((s.symbols.find? key).map (·.push rules)).getD (.pushed key rules)) := by
        simp only [State.push, Symbols.find?_push, if_true]
      exact (State.find?_pushAll_of_not_mem hfirst).trans hpush
    · have hkey : key ≠ p.1 := fun hkey => hfirst (List.mem_map.2 ⟨_, h, hkey⟩)
      have hpush : (s.push scope p.1 p.2).symbols.find? key = s.symbols.find? key := by
        simp only [State.push, Symbols.find?_push, if_neg hkey]
      exact (ih hdistinct h).trans (by rw [hpush])

/-- **Pushes over different symbols may change places.** -/
theorem Shuffled.pushAll (h : Shuffled s t) (hperm : pushes.Perm pushes')
    (hdistinct : (pushes.map (·.1)).Nodup) (scope : Scope) :
    Shuffled (s.pushAll scope pushes) (t.pushAll scope pushes') := by
  have hdistinct' : (pushes'.map (·.1)).Nodup := (hperm.map _).nodup_iff.1 hdistinct
  refine ⟨fun key => ?_, ?_⟩
  · by_cases hkey : key ∈ pushes.map (·.1)
    · obtain ⟨⟨_, rules⟩, hp, rfl⟩ := List.mem_map.1 hkey
      rw [State.find?_pushAll_of_mem hdistinct hp,
        State.find?_pushAll_of_mem hdistinct' (hperm.mem_iff.1 hp), h.find?]
    · have hkey' : key ∉ pushes'.map (·.1) := fun hmem => hkey ((hperm.map _).mem_iff.2 hmem)
      rw [State.find?_pushAll_of_not_mem hkey, State.find?_pushAll_of_not_mem hkey', h.find?]
  · rw [State.source_pushAll, State.source_pushAll, h.source]

theorem State.find?_popAll (hdistinct : names.Nodup) (key : Text) :
    (s.popAll scope names).2.symbols.find? key =
      if key ∈ names then (s.symbols.find? key).map (·.pop) else s.symbols.find? key := by
  induction names generalizing s with
  | nil => rfl
  | cons name names ih =>
    obtain ⟨hname, hdistinct⟩ := List.nodup_cons.1 hdistinct
    have hpop : (s.pop scope name).2.symbols.find? key =
        if key = name then (s.symbols.find? key).map (·.pop) else s.symbols.find? key :=
      Symbols.find?_pop s.symbols name key
    rw [State.popAll, ih hdistinct, hpop]
    by_cases hkey : key = name
    · subst hkey
      simp only [hname, if_false, List.mem_cons_self, if_true]
    · simp only [hkey, if_false, List.mem_cons, false_or]

theorem State.problems_popAll_of_nodup (hdistinct : names.Nodup) :
    (s.popAll scope names).1 =
      (names.filter fun name => (s.symbols.stack name).isEmpty).map .popWithoutPush := by
  induction names generalizing s with
  | nil => rfl
  | cons name names ih =>
    obtain ⟨hname, hdistinct⟩ := List.nodup_cons.1 hdistinct
    have hothers : names.filter (fun key => ((s.pop scope name).2.symbols.stack key).isEmpty) =
        names.filter fun key => (s.symbols.stack key).isEmpty := by
      refine List.filter_congr fun key hkey => ?_
      have hne : key ≠ name := fun h => hname (h ▸ hkey)
      simp only [State.pop, Symbols.stack_pop, if_neg hne]
    have hfirst : (s.pop scope name).1 =
        if s.symbols.stack name = [] then [.popWithoutPush name] else [] :=
      Symbols.pop_fst s.symbols name
    simp only [State.popAll, ih hdistinct, hothers, hfirst]
    by_cases hempty : s.symbols.stack name = []
    · rw [if_pos hempty, List.filter_cons_of_pos (by simpa using hempty)]
      rfl
    · rw [if_neg hempty, List.filter_cons_of_neg (by simpa using hempty)]
      rfl

/-- **Pops of different symbols may change places.** -/
theorem Shuffled.popAll (h : Shuffled s t) (hperm : names.Perm names') (hdistinct : names.Nodup)
    (scope : Scope) :
    (s.popAll scope names).1.Perm (t.popAll scope names').1 ∧
      Shuffled (s.popAll scope names).2 (t.popAll scope names').2 := by
  have hdistinct' : names'.Nodup := hperm.nodup_iff.1 hdistinct
  refine ⟨?_, fun key => ?_, ?_⟩
  · rw [State.problems_popAll_of_nodup hdistinct, State.problems_popAll_of_nodup hdistinct']
    simp only [h.stack]
    exact (hperm.filter _).map _
  · rw [State.find?_popAll hdistinct, State.find?_popAll hdistinct', h.find?]
    simp only [hperm.mem_iff]
  · rw [State.source_popAll, State.source_popAll, h.source]

/-! ### Tags -/

end Expansion

namespace Tag.Clause

/-- The actions before the clause are pushes of escaped texts over different symbols. -/
structure Independent (clause : Tag.Clause) : Prop where
  pushes : ∀ action ∈ clause.actions, ∃ target rules, action = .push target rules ∧ rules.Escaped
  distinct : (clause.actions.map (·.target)).Nodup

/-- The clauses say the same, but their actions may stand in another order. -/
structure Reordered (clause clause' : Tag.Clause) : Prop where
  symbol : clause'.symbol = clause.symbol
  modifiers : clause'.modifiers = clause.modifiers
  problems : clause'.problems.Perm clause.problems
  preactions : clause'.preactions.Perm clause.preactions

variable {clause clause' : Tag.Clause}

theorem Reordered.actions (h : clause.Reordered clause') :
    clause.actions.Perm clause'.actions :=
  (h.preactions.map fun p : Section => Action.read p.raw).symm

theorem Independent.raw_ne (h : clause.Independent) : ∀ p ∈ clause.preactions, p.raw ≠ [] := by
  intro p hp hraw
  obtain ⟨target, rules, hpush, -⟩ := h.pushes (Action.read p.raw) (List.mem_map_of_mem hp)
  rw [hraw] at hpush
  cases hpush

theorem Reordered.independent (h : clause.Reordered clause') (hclause : clause.Independent) :
    clause'.Independent where
  pushes action haction := hclause.pushes action (h.actions.mem_iff.2 haction)
  distinct := (h.actions.map _).nodup_iff.1 hclause.distinct

end Tag.Clause

namespace Expansion

/-- The symbol and the rules that a push of an escaped text pushes. -/
def pushOf (separator : Char) : Action → Text × List Text
  | .push target rules => (target, Alternatives.split separator rules)
  | .pop target | .evaluate target => (target, [])

variable [Scalar α] {c : Context α} {levels depth : Nat} {node node' : Node}
  {clause clause' : Tag.Clause}

theorem activateEach_of_escaped {actions : List Action}
    (h : ∀ action ∈ actions, ∃ target rules, action = .push target rules ∧ rules.Escaped) :
    activateEach c (expand c levels) depth actions s =
      ({ problems := [], state := s.pushAll .before (actions.map (pushOf c.settings.separator)) },
        actions.map (·.target)) := by
  induction actions generalizing s with
  | nil => rfl
  | cons action actions ih =>
    obtain ⟨⟨target, rules, rfl, hrules⟩, hactions⟩ := List.forall_mem_cons.1 h
    have hfirst : activate c (expand c levels) .before depth (.push target rules) s =
        { problems := []
          state := s.push .before target (Alternatives.split c.settings.separator rules) } :=
      activate_push_of_neutral rfl (fun rule hrule => (hrules.of_mem_split rule hrule).neutral) s
    rw [activateEach_cons_of_done (by rw [hfirst]) rfl, hfirst, ih hactions]
    rfl

theorem map_fst_pushOf (separator : Char) (actions : List Action) :
    (actions.map (pushOf separator)).map (·.1) = actions.map (·.target) := by
  rw [List.map_map]
  refine List.map_congr_left fun action _ => ?_
  cases action <;> rfl

/-- Before the clause nothing happens but the pushes, and their order is not seen afterwards. -/
theorem Shuffled.runActions (h : Shuffled s t) (hclauses : clause.Reordered clause')
    (hindependent : clause.Independent) (c : Context α) (levels depth : Nat) :
    ∃ u u' : State α, Shuffled u u' ∧
      Expansion.runActions c (expand c levels) depth clause s =
        ({ problems := [], state := u }, clause.actions.map (·.target)) ∧
      Expansion.runActions c (expand c levels) depth clause' t =
        ({ problems := [], state := u' }, clause'.actions.map (·.target)) := by
  have hentered : Shuffled (s.enter clause.symbol) (t.enter clause'.symbol) := ⟨h.find?, h.source⟩
  have hdistinct : ((clause.actions.map (pushOf c.settings.separator)).map (·.1)).Nodup := by
    rw [map_fst_pushOf]
    exact hindependent.distinct
  exact ⟨_, _, hentered.pushAll (hclauses.actions.map _) hdistinct .before,
    activateEach_of_escaped hindependent.pushes,
    activateEach_of_escaped (hclauses.independent hindependent).pushes⟩

/-- **A tag whose pushes are in another order** does the same, and reports the same in another
order. -/
theorem Shuffled.expandTag (h : Shuffled s t) (hdepth : node.depth = node'.depth)
    (htext : node.text = node'.text) (hproblems : node.problems = node'.problems)
    (hread : Tag.read node.raw = .clause clause) (hread' : Tag.read node'.raw = .clause clause')
    (hclauses : clause.Reordered clause') (hindependent : clause.Independent) {o o' : Outcome α}
    (ho : Expansion.expandTag c (expand c levels) (levelBelow c levels) node s = o)
    (ho' : Expansion.expandTag c (expand c levels) (levelBelow c levels) node' t = o') :
    o.halt = o'.halt ∧ o.node.text = o'.node.text ∧ o.node.problems.Perm o'.node.problems ∧
      Shuffled o.state o'.state := by
  obtain ⟨u, u', hpushed, hrun, hrun'⟩ := h.runActions hclauses hindependent c levels node.depth
  rw [expandTag_of_done hread hrun rfl] at ho
  rw [expandTag_of_done hread' (hdepth ▸ hrun') rfl, hclauses.symbol] at ho'
  let entered := (enterClause node clause).report []
  let entered' := (enterClause node' clause').report []
  have hdepths : entered.depth = entered'.depth := hdepth
  let main := resolve c (levelBelow c levels) clause.symbol entered u
  let main' := resolve c (levelBelow c levels) clause.symbol entered' u'
  obtain ⟨found, hfound, hfound', htexts, hhalt, hstate⟩ :=
    (shuffled_simulation c).resolve hpushed hdepths htext hclauses.modifiers.symm hread
      (show _ = main from rfl) (show _ = main' from rfl)
  obtain ⟨hpops, hpopped⟩ :=
    hstate.popAll (hclauses.actions.map (·.target)) hindependent.distinct .undo
  subst ho ho'
  refine ⟨hhalt, htexts, ?_, hpopped⟩
  change (main.node.problems ++ _).Perm (main'.node.problems ++ _)
  rw [hfound, hfound']
  have hentered : entered.problems.Perm entered'.problems := by
    have hclause := hclauses.problems.symm.append_left node.problems
    simpa [entered, entered', enterClause, Node.report, ← hproblems] using hclause
  exact (hentered.append_right found).append hpops

theorem Shuffled.expand_tag (h : Shuffled s t) {raw : Text} (hkind : node.kind = .tag)
    (hexpanded : node.expanded = false) (hread : Tag.read node.raw = .clause clause)
    (hread' : Tag.read raw = .clause clause') (hclauses : clause.Reordered clause')
    (hindependent : clause.Independent) {o o' : Outcome α}
    (ho : expand c levels node s = o) (ho' : expand c levels { node with raw } t = o') :
    o.halt = o'.halt ∧ o.node.text = o'.node.text ∧ o.node.problems.Perm o'.node.problems ∧
      Shuffled o.state o'.state := by
  let begun : Node := { node with expanded := true }
  let begun' : Node := { begun with raw }
  have hbegun : Tag.read begun.raw = .clause clause := hread
  have hbegun' : Tag.read begun'.raw = .clause clause' := hread'
  rw [expand_eq, expandWith_of_tag hexpanded hkind] at ho
  rw [expand_eq, expandWith_of_tag (by exact hexpanded) (by exact hkind)] at ho'
  have hdepth : begun.depth = begun'.depth := rfl
  exact h.expandTag hdepth rfl rfl hbegun hbegun' hclauses hindependent ho ho'

theorem Shuffled.gatherSections_tag (h : Shuffled s t) {raw raw' : Text}
    (hread : Tag.read raw = .clause clause) (hread' : Tag.read raw' = .clause clause')
    (hclauses : clause.Reordered clause') (hindependent : clause.Independent) {y y' : Yield α}
    (hy : gatherSections (expand c levels) depth [⟨.tag, raw⟩] s = y)
    (hy' : gatherSections (expand c levels) depth [⟨.tag, raw'⟩] t = y') :
    y.halt = y'.halt ∧ y.text = y'.text ∧ y.problems.Perm y'.problems ∧
      Shuffled y.state y'.state := by
  subst hy hy'
  let node : Node := { raw, kind := .tag, depth, index := 0 }
  let o := expand c levels node s
  let o' := expand c levels { node with raw := raw' } t
  obtain ⟨hhalt, htext, hproblems, hstate⟩ :=
    h.expand_tag rfl rfl (show Tag.read node.raw = _ from hread) hread' hclauses hindependent
      (show _ = o from rfl) (show _ = o' from rfl)
  cases hdone : o.halt with
  | some halt =>
    rw [gatherSections_cons_of_halt (show _ = o from rfl) hdone,
      gatherSections_cons_of_halt (show _ = o' from rfl) (hhalt ▸ hdone)]
    exact ⟨rfl, rfl, .nil, hstate⟩
  | none =>
    rw [gatherSections_cons_of_done (show _ = o from rfl) hdone,
      gatherSections_cons_of_done (show _ = o' from rfl) (hhalt ▸ hdone)]
    refine ⟨rfl, ?_, ?_, hstate⟩
    · exact congrArg (· ++ []) htext
    · exact hproblems.append_right []

end Expansion

/-! ### Grammars -/

/-- Two expansions by a grammar that differ in the order of what is reported, and in that of the
symbols that pushes have made, if in anything. -/
structure Expanded.Reordered (g : Grammar α) (e e' : Expanded α) : Prop where
  halt : e.halt = e'.halt
  text : e.node.text = e'.node.text
  problems : e.node.problems.Perm e'.node.problems
  source : e.grammar.source = e'.grammar.source
  /-- Every name has the same stack, base, weights and mark, or is in neither table. -/
  find? : ∀ name, e.grammar.symbols.find? name = e'.grammar.symbols.find? name
  names : ∃ new new', e.grammar.symbols.names = g.symbols.names ++ new ∧
    e'.grammar.symbols.names = g.symbols.names ++ new' ∧ new.Perm new' ∧
    ∀ name ∈ new, ∃ s : Store α, e.grammar.symbols.find? name = some s ∧ s.dynamic = true

namespace Grammar

open Expansion

variable [Scalar α]

variable {g : Grammar α} {raw raw' : Text} {clause clause' : Tag.Clause}

theorem reordered_expandNodeWithin (hread : Tag.read raw = .clause clause)
    (hread' : Tag.read raw' = .clause clause') (hclauses : clause.Reordered clause')
    (hindependent : clause.Independent) (levels : Nat) {node : Node} (hkind : node.kind = .tag)
    (hexpanded : node.expanded = false) (hraw : node.raw = raw) :
    Expanded.Reordered g (g.expandNodeWithin levels node)
      (g.expandNodeWithin levels { node with raw := raw' }) := by
  have hsame : Shuffled g.state g.state := ⟨fun _ => rfl, rfl⟩
  obtain ⟨hhalt, htext, hproblems, hstate⟩ :=
    hsame.expand_tag hkind hexpanded (hraw ▸ hread) hread' hclauses hindependent
      (show Expansion.expand g.context levels node g.state = _ from rfl) rfl
  exact ⟨hhalt, htext, hproblems, hstate.source, hstate.find?,
    (Runs.node levels node).extends.exists_names_perm (Runs.node levels _).extends hstate.find?⟩

theorem reordered_expand (hread : Tag.read raw = .clause clause)
    (hread' : Tag.read raw' = .clause clause') (hclauses : clause.Reordered clause')
    (hindependent : clause.Independent) {rule rule' : Text}
    (hscan : scan rule = ⟨[⟨.tag, raw⟩], []⟩) (hscan' : scan rule' = ⟨[⟨.tag, raw'⟩], []⟩)
    (keepEscapes : Bool) :
    Expanded.Reordered g (g.expand rule keepEscapes) (g.expand rule' keepEscapes) := by
  have hne : ∀ {rule raw : Text}, scan rule = ⟨[⟨.tag, raw⟩], []⟩ → rule ≠ [] := by
    rintro _ raw h rfl
    cases h
  let y := gatherSections (Expansion.expand g.context g.settings.levels) 1 [⟨.tag, raw⟩] g.state
  let y' := gatherSections (Expansion.expand g.context g.settings.levels) 1 [⟨.tag, raw'⟩] g.state
  obtain ⟨hhalt, htext, hproblems, hgrammar, -⟩ :=
    g.expand_eq_gatherSections (hne hscan) (show _ = y by rw [hscan])
  obtain ⟨hhalt', htext', hproblems', hgrammar', -⟩ :=
    g.expand_eq_gatherSections (hne hscan') (show _ = y' by rw [hscan'])
  have hsame : Shuffled g.state g.state := ⟨fun _ => rfl, rfl⟩
  obtain ⟨hhalts, htexts, hfound, hstate⟩ :=
    hsame.gatherSections_tag hread hread' hclauses hindependent (show _ = y from rfl)
      (show _ = y' from rfl)
  have hleft : ∀ rule, (g.expand rule keepEscapes).grammar = (g.expand rule true).grammar :=
    fun rule => by rw [grammar_expand, grammar_expand]
  have hfind : ∀ name, (g.expand rule keepEscapes).grammar.symbols.find? name =
      (g.expand rule' keepEscapes).grammar.symbols.find? name := fun name => by
    rw [hleft, hleft, hgrammar, hgrammar']
    exact hstate.find? name
  refine ⟨?_, text_expand_congr (by rw [htext, htext', htexts]) keepEscapes, ?_, ?_, hfind,
    (Runs.rule _ rule keepEscapes).extends.exists_names_perm
      (Runs.rule _ rule' keepEscapes).extends hfind⟩
  · rw [halt_expand] at hhalt hhalt' ⊢
    rw [halt_expand, hhalt, hhalt', hhalts]
  · rw [problems_expand] at hproblems hproblems' ⊢
    rw [problems_expand, hproblems, hproblems', hscan, hscan']
    exact hfound
  · rw [hleft, hleft, hgrammar, hgrammar']
    exact hstate.source

/-- **Pushes of a tag commute.**  If the actions of a tag push escaped texts over different symbols,
another tag that differs in their order is expanded to the same text or halts for the same reason,
wherever it stands. The same is reported up to the order, the same values are drawn, and under every
name the same is found afterwards; only symbols that are new may come in another order.

In the text of a tag the sections may be put in any order: this gives such a tag, and no other
section. -/
theorem expand_reordered (g : Grammar α)
    (hread : Tag.read raw = .clause clause) (hindependent : clause.Independent) :
    (∀ raw' clause', Tag.read raw' = .clause clause' → clause.Reordered clause' →
      ∀ (levels : Nat) (node : Node), node.kind = .tag → node.expanded = false → node.raw = raw →
        Expanded.Reordered g (g.expandNodeWithin levels node)
          (g.expandNodeWithin levels { node with raw := raw' })) ∧
      ∀ rule, ⟨.tag, raw⟩ ∈ (scan rule).sections → ∀ xs, xs.Perm (scan raw).sections →
        let raw' := xs.flatMap Section.source
        let tag := Section.source ⟨.tag, raw⟩
        let tag' := Section.source ⟨.tag, raw'⟩
        (scan tag').sections = [⟨.tag, raw'⟩] ∧ (scan raw').sections = xs ∧
          (∃ clause', Tag.read raw' = .clause clause' ∧ clause.Reordered clause' ∧
            clause'.preactions = xs.filter (·.kind != .plain)) ∧
          ∀ keepEscapes, Expanded.Reordered g (g.expand tag keepEscapes)
            (g.expand tag' keepEscapes) := by
  refine ⟨fun raw' clause' hread' hclauses levels node hkind hexpanded hraw =>
    reordered_expandNodeWithin hread hread' hclauses hindependent levels hkind hexpanded hraw,
    fun rule hmem xs hperm => ?_⟩
  intro raw' tag tag'
  have hclosed : Section.Closed ⟨.tag, raw⟩ := closed_of_mem_scan hmem (by simp)
  obtain ⟨hscan, hclosed', hread', hpreactions⟩ :=
    Tag.read_of_perm hclosed hread hindependent.raw_ne hperm
  have hclauses : clause.Reordered { clause with preactions := xs.filter (·.kind != .plain) } :=
    ⟨rfl, rfl, .refl _, hpreactions⟩
  have hne : ∀ {raw : Text} {clause : Tag.Clause}, Tag.read raw = .clause clause → raw ≠ [] := by
    rintro _ clause h rfl
    cases h
  have htag : scan tag = ⟨[⟨.tag, raw⟩], []⟩ := scan_source_tag hclosed (hne hread)
  have htag' : scan tag' = ⟨[⟨.tag, raw'⟩], []⟩ := scan_source_tag hclosed' (hne hread')
  exact ⟨by rw [htag'], by rw [hscan], ⟨_, hread', hclauses, rfl⟩,
    reordered_expand hread hread' hclauses hindependent htag htag'⟩

/-- The rule of the symbol has already popped what both pushes have pushed, and pops once more. The
clause moves to the front. -/
theorem expand_reordered_popped :
    let g := ofRules [("s", ["#x##y#[y:POP][z:1][x:POP][x:POP]"])]
    let e := g.expand "#[x:a][y:\\#,b]s#".toList true
    let e' := g.expand "#s[y:\\#,b][x:a]#".toList true
    Expanded.Reordered g e e' ∧ e.halt = none ∧ e'.node.text = "a\\#".toList ∧
      e.node.problems = [.popWithoutPush ['x'], .popWithoutPush ['x'], .popWithoutPush ['y']] ∧
      e'.node.problems = [.popWithoutPush ['x'], .popWithoutPush ['y'], .popWithoutPush ['x']] ∧
      e.grammar.symbols.names = [['s'], ['x'], ['y'], ['z']] ∧
      e'.grammar.symbols.names = [['s'], ['y'], ['x'], ['z']] := by
  intro g e e'
  let x : Section := ⟨.action, "x:a".toList⟩
  let y : Section := ⟨.action, "y:\\#,b".toList⟩
  let main : Section := ⟨.plain, ['s']⟩
  let raw : Text := "[x:a][y:\\#,b]s".toList
  let clause : Tag.Clause :=
    { symbol := ['s'], modifiers := [], preactions := [x, y], problems := [] }
  have hread : Tag.read raw = .clause clause := by decide +kernel
  have hactions : clause.actions = [.push ['x'] ['a'], .push ['y'] "\\#,b".toList] := by
    decide +kernel
  have hindependent : clause.Independent := by
    refine ⟨?_, by decide +kernel⟩
    rw [hactions]
    exact List.forall_mem_cons.2 ⟨⟨_, _, rfl, by decide⟩,
      List.forall_mem_singleton.2 ⟨_, _, rfl, by decide⟩⟩
  have hsections : (scan raw).sections = [x, y, main] := by decide +kernel
  have hperm : [main, y, x].Perm (scan raw).sections := by
    rw [hsections]
    exact List.reverse_perm [x, y, main]
  have hmem : ⟨.tag, raw⟩ ∈ (scan "#[x:a][y:\\#,b]s#".toList).sections := by decide +kernel
  obtain ⟨-, hall⟩ := expand_reordered g hread hindependent
  obtain ⟨-, -, -, hreordered⟩ := hall _ hmem [main, y, x] hperm
  have htexts : e.node.text = "a\\#".toList := by decide +kernel
  have h : Expanded.Reordered g e e' := hreordered true
  exact ⟨h, by decide +kernel, h.text.symm.trans htexts, by decide +kernel, by decide +kernel,
    by decide +kernel, by decide +kernel⟩

end Grammar

end TextGrammar
