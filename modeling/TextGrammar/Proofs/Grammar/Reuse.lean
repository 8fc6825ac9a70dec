import TextGrammar.Proofs.Expansion.Simulation
import TextGrammar.Proofs.Grammar.Reachable

/-!
# A used grammar is as good as new

Use leaves stores behind that a push has made and a pop has emptied, and taking the pushed rules
away leaves those that were not popped empty as well. A document does not list them. An expansion
cannot tell such a store from one that is not there (`Expansion.alike_simulation`), so a grammar
that was cleared expands every sequence of rules like one that is built again from its document
(`Grammar.Reachable.expandInTurn_rebuilt`).
-/

namespace TextGrammar

variable {α : Type} [Scalar α]

namespace Expansion

/-- Two states with the same stores, the same source and the same history. -/
structure Alike (s t : State α) : Prop where
  store : ∀ name, s.symbols.store name = t.symbols.store name
  source : s.source = t.source
  trace : s.trace = t.trace

theorem alike_simulation (c : Context α) : Simulation c Alike where
  enter h symbol := ⟨h.store, h.source, by simp only [State.enter, h.trace]⟩
  push h scope name rules := by
    refine ⟨fun key => ?_, h.source, by simp only [State.push, h.trace]⟩
    simp only [State.push, Symbols.store_push, h.store]
  pop_problems h scope name := by
    simp only [State.pop, Symbols.pop_fst, Symbols.stack_eq_overrides, h.store]
  pop h scope name := by
    refine ⟨fun key => ?_, h.source, by simp only [State.pop, h.trace]⟩
    simp only [State.pop, Symbols.store_pop, h.store]
  select_rule h name := by
    simp only [State.select, h.source, Symbols.select_congr (h.store name)]
  select_problems h name := by
    simp only [State.select, h.source, Symbols.select_congr (h.store name)]
  select h name := by
    refine ⟨h.store, ?_, h.trace⟩
    simp only [State.select, h.source, Symbols.select_congr (h.store name)]

end Expansion

/-! ### Saving and building again -/

namespace Symbols

variable {t : Symbols α}

theorem validate_toDocument (h : t.Proper) : t.toDocument.validate = .ok () := by
  rw [Document.validate_eq_ok]
  rintro ⟨name, definition⟩ he
  obtain ⟨s, hs, rfl⟩ := Named.mem_entries_mapValues.1 he
  rw [← Named.find?_eq_some, Named.find?_filter, Option.filter_eq_some_iff] at hs
  obtain ⟨hfind, hdynamic⟩ := hs
  exact (h name s hfind).fault (by simpa using hdynamic)

/-- Saving a table and building it again takes all pushed rules away, and nothing else. -/
theorem store_ofDocument_toDocument (h : t.Proper) (name : Text) :
    (ofDocument t.toDocument).store name = (t.store name).clear := by
  unfold store ofDocument toDocument
  rw [Named.find?_mapValues, Named.find?_mapValues, Named.find?_filter]
  cases hs : t.find? name with
  | none => rfl
  | some s =>
    obtain ⟨rfl, hbase, hweights, -⟩ := h name s hs
    obtain ⟨name, base, weights, overrides, dynamic⟩ := s
    cases dynamic with
    | true =>
      -- a store that a push has made is not in the document
      obtain rfl := hbase rfl
      obtain rfl := hweights rfl
      rfl
    | false => cases weights <;> rfl

end Symbols

namespace Grammar

/-- Two grammars that differ in nothing but stores that are empty or missing. -/
structure Alike (g g' : Grammar α) : Prop where
  store : ∀ name, g.symbols.store name = g'.symbols.store name
  modifiers : g.modifiers = g'.modifiers
  fallbacks : g.fallbacks = g'.fallbacks
  source : g.source = g'.source
  settings : g.settings = g'.settings

theorem Alike.expand {g g' : Grammar α} (h : g.Alike g') (rule : Text) (keepEscapes : Bool) :
    (g.expand rule keepEscapes).result = (g'.expand rule keepEscapes).result ∧
      (g.expand rule keepEscapes).trace = (g'.expand rule keepEscapes).trace ∧
      (g.expand rule keepEscapes).grammar.Alike (g'.expand rule keepEscapes).grammar := by
  obtain ⟨symbols, modifiers, fallbacks, source, settings⟩ := g
  obtain ⟨symbols', modifiers', fallbacks', source', settings'⟩ := g'
  obtain ⟨hstore, rfl, rfl, rfl, rfl⟩ := h
  let g : Grammar α := ⟨symbols, modifiers, fallbacks, source, settings⟩
  let g' : Grammar α := ⟨symbols', modifiers, fallbacks, source, settings⟩
  obtain ⟨hnode, hhalt, hstate⟩ := (Expansion.alike_simulation g.context).expand settings.levels
    (Node.root rule) g.state g'.state ⟨hstore, rfl, rfl⟩
  have hnode : (g.expand rule keepEscapes).node = (g'.expand rule keepEscapes).node := by
    cases keepEscapes with
    | true => exact hnode
    | false => exact congrArg Node.stripEscapes hnode
  have hhalt : (g.expand rule keepEscapes).halt = (g'.expand rule keepEscapes).halt := by
    cases keepEscapes <;> exact hhalt
  refine ⟨?_, ?_, ?_⟩
  · simp only [Expanded.result, g, g'] at hnode hhalt ⊢
    rw [hnode, hhalt]
  · cases keepEscapes <;> exact congrArg List.reverse hstate.trace
  · cases keepEscapes <;> exact ⟨hstate.store, rfl, rfl, hstate.source, rfl⟩

/-- Expand rules one after the other. The list says what each of them gives, what happened and
what is left of the source. -/
def expandInTurn (g : Grammar α) :
    List (Text × Bool) → List (Except Halt Node × List Expansion.Event × Source α)
  | [] => []
  | (rule, keepEscapes) :: rules =>
    let e := g.expand rule keepEscapes
    (e.result, e.trace, e.grammar.source) :: e.grammar.expandInTurn rules

theorem Alike.expandInTurn {g g' : Grammar α} (h : g.Alike g') (rules : List (Text × Bool)) :
    g.expandInTurn rules = g'.expandInTurn rules := by
  induction rules generalizing g g' with
  | nil => rfl
  | cons r rules ih =>
    obtain ⟨hresult, htrace, halike⟩ := h.expand r.1 r.2
    simp only [Grammar.expandInTurn, hresult, htrace, halike.source, ih halike]

/-- **A used grammar is as good as new.**  Once its pushed rules are taken away, a grammar that was
built or loaded and then used in any way can be built again from its document, and no sequence of
expansions tells the two apart: each gives the same tree or halts for the same reason, does the
same pushes and pops, and draws the same values. -/
theorem Reachable.expandInTurn_rebuilt {g : Grammar α} (h : g.Reachable) :
    ∃ fresh, ofDocument g.clear.toDocument g.clear.modifiers g.clear.fallbacks g.clear.source
        g.clear.settings = .ok fresh ∧
      ∀ rules, g.clear.expandInTurn rules = fresh.expandInTurn rules := by
  have hproper : g.clear.symbols.Proper := h.proper.clear
  refine ⟨{ g.clear with symbols := .ofDocument g.clear.toDocument }, ?_, fun rules => ?_⟩
  · exact ofDocument_of_valid (Symbols.validate_toDocument hproper) _ _ _ _
  · have halike : g.clear.Alike { g.clear with symbols := .ofDocument g.clear.toDocument } := by
      refine ⟨fun name => ?_, rfl, rfl, rfl, rfl⟩
      simp only [toDocument, Symbols.store_ofDocument_toDocument hproper]
      simp only [Grammar.clear, Symbols.store_clear]
      rfl
    exact halike.expandInTurn rules

/-- The first expansion leaves an empty store for `t` and a pushed rule for `a` behind. -/
theorem Reachable.expandInTurn_rebuilt_emptied :
    let g := ((ofRules [("a", ["x"])]).expand "[t:1]#t#[t:POP][a:y]#a#".toList true).grammar
    g.symbols.names = [['a'], ['t']] ∧ g.clear.toDocument.names = [['a']] ∧
      ∃ fresh, ofDocument g.clear.toDocument g.clear.modifiers g.clear.fallbacks g.clear.source
          g.clear.settings = .ok fresh ∧
        ∀ rules, g.clear.expandInTurn rules = fresh.expandInTurn rules := by
  intro g
  have hfresh : (ofRules [("a", ["x"])]).Reachable :=
    Reachable.build (d := documentOf [("a", ["x"])]) rfl
  have hg : g.Reachable := hfresh.expand (.rule _ _ _)
  exact ⟨by decide +kernel, by decide +kernel, hg.expandInTurn_rebuilt⟩

end Grammar

end TextGrammar
