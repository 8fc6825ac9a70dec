import TextGrammar.Document.Json
import TextGrammar.Proofs.Grammar.Runs
import TextGrammar.Proofs.Symbols

/-!
# What an expansion leaves alone

The rules of a grammar push and pop whatever names they like while it expands, those of fallbacks
and of stores that a pop has emptied among them. All that comes of it are other lists on the stacks
and new stores at the end of the table that have nothing but their stack (`Symbols.Extends`). A
table and one that it extends declare the same, so a grammar is saved to the same document after
every run, also after one that was broken off (`Grammar.Runs.frame`).
-/

namespace TextGrammar

variable {α : Type}

/-! ### Tables -/

namespace Symbols

/-- All stores of the first table are in the second, in the same places and the same but for their
stacks. The other stores of the second come behind them, and pushes have made them. -/
def Extends (t u : Symbols α) : Prop :=
  ∃ added, u.clear.entries = t.clear.entries ++ added ∧
    ∀ e ∈ added, e.2.dynamic = true ∧ e.2.base = []

variable {t u v : Symbols α}

theorem entries_clear (t : Symbols α) :
    t.clear.entries = t.entries.map fun e => (e.1, e.2.clear) := rfl

theorem Extends.of_clear_eq (h : u.clear.entries = t.clear.entries) : t.Extends u :=
  ⟨[], by rw [h, List.append_nil], fun _ he => absurd he List.not_mem_nil⟩

theorem Extends.refl (t : Symbols α) : t.Extends t := .of_clear_eq rfl

theorem Extends.trans (h : t.Extends u) (h' : u.Extends v) : t.Extends v := by
  obtain ⟨added, heq, hadded⟩ := h
  obtain ⟨added', heq', hadded'⟩ := h'
  refine ⟨added ++ added', by rw [heq', heq, List.append_assoc], fun e he => ?_⟩
  exact (List.mem_append.1 he).elim (hadded e) (hadded' e)

theorem entries_clear_modify (name : Text) {f : Store α → Store α}
    (hf : ∀ s, (f s).clear = s.clear) :
    (clear (t.modify name f)).entries = t.clear.entries := by
  simp only [entries_clear, Named.modify, Named.mapValues, List.map_map]
  refine List.map_congr_left fun e _ => ?_
  simp only [Function.comp_apply]
  split_ifs
  · rw [hf]
  · rfl

theorem extends_push (t : Symbols α) (name : Text) (rules : List Text) :
    t.Extends (t.push name rules true) := by
  unfold push
  by_cases h : t.contains name
  · rw [if_pos h]
    exact .of_clear_eq (entries_clear_modify name fun _ => rfl)
  · -- the store is new, and empty but for the rules that are pushed
    have hmem : name ∉ t.names := fun hmem => h (List.contains_iff_mem.2 hmem)
    rw [if_neg h, if_pos rfl]
    refine ⟨[(name, (Store.pushed name rules).clear)], ?_, fun e he => ?_⟩
    · simp only [Named.insert, hmem, dite_false, entries_clear, List.map_append, List.map_cons,
        List.map_nil]
    · rw [List.mem_singleton.1 he]
      exact ⟨rfl, rfl⟩

theorem extends_pop (t : Symbols α) (name : Text) : t.Extends (t.pop name).2 := by
  cases h : t.stack name with
  | nil =>
    rw [pop_of_stack_eq_nil h]
    exact .refl t
  | cons rules rest =>
    rw [pop_of_stack_eq_cons h]
    exact .of_clear_eq (entries_clear_modify name fun _ => rfl)

theorem Extends.kept (h : t.Extends u) {i : Nat} {name : Text} {s : Store α}
    (hs : t.entries[i]? = some (name, s)) :
    ∃ s' : Store α, u.entries[i]? = some (name, s') ∧
      s'.base = s.base ∧ s'.weights = s.weights ∧ s'.dynamic = s.dynamic := by
  obtain ⟨added, heq, -⟩ := h
  have hi : i < t.clear.entries.length := by
    rw [entries_clear, List.length_map]
    exact (List.getElem?_eq_some_iff.1 hs).1
  have hu : u.clear.entries[i]? = some (name, s.clear) := by
    rw [heq, List.getElem?_append_left hi, entries_clear, List.getElem?_map, hs, Option.map_some]
  rw [entries_clear, List.getElem?_map, Option.map_eq_some_iff] at hu
  obtain ⟨⟨name', s'⟩, hs', he⟩ := hu
  obtain ⟨rfl, hclear⟩ := Prod.mk.inj he
  obtain ⟨-, hbase, hweights, -, hdynamic⟩ := Store.mk.inj hclear
  exact ⟨s', hs', hbase, hweights, hdynamic⟩

/-- A store behind those that were there was made by a push. -/
theorem Extends.made (h : t.Extends u) {i : Nat} (hi : t.size ≤ i) {name : Text} {s : Store α}
    (hs : u.entries[i]? = some (name, s)) : s.dynamic = true ∧ s.base = [] := by
  obtain ⟨added, heq, hadded⟩ := h
  have hlength : t.clear.entries.length = t.size := by
    rw [entries_clear, List.length_map, Named.size]
  have hu : u.clear.entries[i]? = some (name, s.clear) := by
    rw [entries_clear, List.getElem?_map, hs, Option.map_some]
  rw [heq, List.getElem?_append_right (hlength ▸ hi)] at hu
  exact hadded _ (List.mem_of_getElem? hu)

theorem entries_toDocument (t : Symbols α) :
    t.toDocument.entries =
      (t.clear.entries.filter fun e => !e.2.dynamic).map fun e => (e.1, definitionOf e.2) := by
  rw [entries_clear, List.filter_map, List.map_map]
  rfl

/-- Stores that a push has made are in no document. -/
theorem Extends.toDocument_eq (h : t.Extends u) : u.toDocument = t.toDocument := by
  obtain ⟨added, heq, hadded⟩ := h
  have hnone : (added.filter fun e => !e.2.dynamic) = [] := by
    refine List.filter_eq_nil_iff.2 fun e he => ?_
    simp [(hadded e he).1]
  have hentries : u.toDocument.entries = t.toDocument.entries := by
    rw [entries_toDocument, entries_toDocument, heq, List.filter_append, hnone, List.append_nil]
  cases hu : u.toDocument
  cases ht : t.toDocument
  rw [hu, ht] at hentries
  cases hentries
  rfl

end Symbols

/-! ### Expansions -/

namespace Expansion

theorem State.extends_popAll (s : State α) (scope : Scope) (names : List Text) :
    s.symbols.Extends (s.popAll scope names).2.symbols := by
  induction names generalizing s with
  | nil => exact .refl _
  | cons name names ih => exact (Symbols.extends_pop s.symbols name).trans (ih _)

theorem extends_account [Scalar α] (c : Context α) :
    Account c fun _ _ s t => s.symbols.Extends t.symbols where
  refl _ := .refl _
  trans h h' := h.trans h'
  drop h := h
  scanned _ _ := .refl _
  capped _ _ _ := .refl _
  unregistered _ _ := .refl _
  enter _ _ := .refl _
  select _ _ := .refl _
  bare_push name rules s := Symbols.extends_push s.symbols name rules
  before_push name rules s := Symbols.extends_push s.symbols name rules
  pop _ name s := Symbols.extends_pop s.symbols name
  settle h := h.trans (State.extends_popAll _ _ _)

end Expansion

/-! ### Grammars -/

namespace Grammar

theorem Runs.extends [Scalar α] {g : Grammar α} {node : Node} {e : Expanded α}
    (h : g.Runs node e) : g.symbols.Extends e.grammar.symbols := by
  obtain ⟨found, t, hextends, -, hg, -⟩ := h.account (Expansion.extends_account g.context)
  rw [hg]
  exact hextends

theorem Runs.grammar_eq [Scalar α] {g : Grammar α} {node : Node} {e : Expanded α}
    (h : g.Runs node e) :
    e.grammar = { g with symbols := e.grammar.symbols, source := e.grammar.source } := by
  obtain ⟨found, t, -, -, hg, -⟩ := h.account (Expansion.extends_account g.context)
  rw [hg]
  rfl

/-- **An expansion touches nothing but the stacks.**  Whatever a grammar expands, all the way or
not, and however that ends: its symbols keep their places, base rules, weights and marks; those
that are new come behind them and are made by pushes; its settings, modifiers and fallbacks are the
same; and it is saved to the same document. -/
theorem Runs.frame {g : Grammar Float} {node : Node} {e : Expanded Float} (h : g.Runs node e) :
    (∀ (i : Nat) (name : Text) (s : Store Float), g.symbols.entries[i]? = some (name, s) →
        ∃ s' : Store Float, e.grammar.symbols.entries[i]? = some (name, s') ∧
          s'.base = s.base ∧ s'.weights = s.weights ∧ s'.dynamic = s.dynamic) ∧
      (∀ (i : Nat) (name : Text) (s : Store Float), g.symbols.size ≤ i →
        e.grammar.symbols.entries[i]? = some (name, s) → s.dynamic = true ∧ s.base = []) ∧
      e.grammar.settings = g.settings ∧ e.grammar.modifiers = g.modifiers ∧
      e.grammar.fallbacks = g.fallbacks ∧
      e.grammar.toDocument = g.toDocument ∧
      e.grammar.toDocument.writeJson = g.toDocument.writeJson := by
  have hextends := h.extends
  have hdocument : e.grammar.toDocument = g.toDocument := hextends.toDocument_eq
  refine ⟨fun i name s hs => hextends.kept hs, fun i name s hi hs => hextends.made hi hs,
    ?_, ?_, ?_, hdocument, by rw [hdocument]⟩
  · rw [h.grammar_eq]
  · rw [h.grammar_eq]
  · rw [h.grammar_eq]

/-- The tag pushes over a symbol of the fallback, and the rule of its symbol over one that is
declared and over one that a pop had emptied, before it halts. -/
theorem Runs.frame_halted :
    let fallback := ofRules [("t", ["z"])]
    let used := (ofRules [("a", ["x"]), ("s", ["[a:1][b:2]#y[z:0]w#"])]).push ['b'] [['0']] true
    let g := (used.pop ['b']).2.addFallback fallback
    let e := g.expand "#[t:3]s#".toList true
    e.halt = some (.ambiguousTag "y[z:0]w".toList) ∧
      g.symbols.names = [['a'], ['s'], ['b']] ∧
      e.grammar.symbols.names = [['a'], ['s'], ['b'], ['t']] ∧
      e.grammar.symbols.stack ['a'] = [[['1']]] ∧ e.grammar.symbols.stack ['b'] = [[['2']]] ∧
      (∀ s : Store Float, e.grammar.symbols.entries[3]? = some (['t'], s) →
        s.dynamic = true ∧ s.base = []) ∧
      e.grammar.fallbacks = [fallback] ∧ e.grammar.toDocument = g.toDocument := by
  intro fallback used g e
  obtain ⟨-, hmade, -, -, hfallbacks, hdocument, -⟩ :=
    Runs.frame (g := g) (e := e) (.rule _ _ _)
  refine ⟨by decide +kernel, by decide +kernel, by decide +kernel, by decide +kernel,
    by decide +kernel, fun s hs => hmade 3 _ s (by decide +kernel) hs, hfallbacks, hdocument⟩

end Grammar

end TextGrammar
