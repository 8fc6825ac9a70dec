import TextGrammar.Proofs.Grammar.Reachable
import TextGrammar.Proofs.Lint.PushFree

/-!
# Symbols that nothing refers to

If a check of a document without pushes finds that no tag refers to a symbol, then the declaration
of the symbol is never looked up: it may be removed or replaced, and the rules of the other symbols
expand as before (`Grammar.expand_redeclare`). A pop may still name the symbol, but without a push
it finds nothing to take away, whatever is declared.
-/

namespace TextGrammar

variable {α : Type}

/-! ### Another declaration -/

namespace Document

/-- The document with another declaration of a symbol, or with none. -/
def redeclare (d : Document α) (symbol : Text) : Option (Definition α) → Document α
  | some definition => d.insert symbol definition
  | none => d.filter fun name _ => decide (name ≠ symbol)

variable {d : Document α} {symbol name : Text} {replacement : Option (Definition α)}

theorem find?_redeclare (h : name ≠ symbol) :
    (d.redeclare symbol replacement).find? name = d.find? name := by
  cases replacement with
  | some definition => rw [redeclare, Named.find?_insert, if_neg h]
  | none =>
    rw [redeclare, Named.find?_filter]
    cases d.find? name <;> simp [Option.filter, h]

theorem mem_entries_redeclare {e : Text × Definition α}
    (h : e ∈ (d.redeclare symbol replacement).entries) :
    e ∈ d.entries ∨ some e.2 = replacement := by
  obtain ⟨name, definition⟩ := e
  rw [← Named.find?_eq_some] at h ⊢
  by_cases hname : name = symbol
  · cases replacement with
    | some other =>
      rw [redeclare, Named.find?_insert, if_pos hname] at h
      exact .inr h.symm
    | none =>
      rw [redeclare, Named.find?_filter, Option.filter_eq_some_iff] at h
      exact .inl h.1
  · rw [find?_redeclare hname] at h
    exact .inl h

theorem validate_redeclare [Scalar α] (hd : d.validate = .ok ())
    (hreplacement : ∀ definition, replacement = some definition → definition.fault? = none) :
    (d.redeclare symbol replacement).validate = .ok () := by
  rw [validate_eq_ok] at hd ⊢
  intro e he
  exact (mem_entries_redeclare he).elim (hd e) fun h => hreplacement e.2 h.symm

end Document

/-! ### Expansions -/

variable [Scalar α] {d : Document α} {symbol : Text} {separator : Char}
  {replacement : Option (Definition α)}

theorem Expansion.holds_redeclare {c : Expansion.Context α} (hfallbacks : c.fallbacks = [])
    (hseparator : c.settings.separator = separator)
    (hpushes : ∀ x, d.Visits separator x → x.own.pushes = [])
    (htags : ∀ x, d.Visits separator x → symbol ∉ x.own.tags) :
    (Regime.pushFree d (d.redeclare symbol replacement) separator (fun x => symbol ∉ x.own.tags)
      (fun _ => True) (fun _ => True)).Holds c := by
  refine Regime.holds_pushFree hseparator (fun _ _ _ _ => trivial) (fun _ _ _ _ => trivial) trivial
    (fun _ _ => trivial) (fun _ => trivial) (fun _ => trivial) ?_
  intro raw clause htag hread hp source
  rw [hfallbacks]
  have hne : clause.symbol ≠ symbol := by
    rintro rfl
    simp [Section.own_of_clause hread] at hp
  have hstore : (Symbols.ofDocument d).store clause.symbol =
      (Symbols.ofDocument (d.redeclare symbol replacement)).store clause.symbol := by
    simp only [Symbols.store, Symbols.ofDocument, Named.find?_mapValues,
      Document.find?_redeclare hne]
  refine ⟨Symbols.select_congr hstore [] source, fun _ _ => trivial, fun rule hrule => ?_⟩
  refine d.throughout_selected (fun y hy => ⟨hpushes y hy, htags y hy⟩) ?_ htag hread hrule
  intro y hy
  obtain ⟨htags, hpushes⟩ := Section.own_of_text hy
  exact ⟨hpushes, by simp [htags]⟩

namespace Grammar

/-- **What nothing refers to may be removed or replaced.**  In a document without pushes, let no
tag refer to a symbol. Grammars of this document and of one with another declaration of the symbol,
or with none, expand every rule of the document to the same tree, or halt for the same reason, and
draw the same values. -/
theorem expand_redeclare {origin : Text} (hvalid : d.validate = .ok ())
    (hpushes : (Lint.survey d separator).pushes = [])
    (hunreferenced : .unreferenced symbol ∈ (lint d origin separator).warnings)
    (hreplacement : ∀ definition, replacement = some definition → definition.fault? = none)
    {name rule : Text} {definition : Definition α} (hfind : d.find? name = some definition)
    (hrule : rule ∈ definition.rules)
    (modifiers : Registry) (source : Source α) {settings : Settings}
    (hseparator : settings.separator = separator) (keepEscapes : Bool) :
    ∃ g g', ofDocument d modifiers [] source settings = .ok g ∧
      ofDocument (d.redeclare symbol replacement) modifiers [] source settings = .ok g' ∧
      (g.expand rule keepEscapes).result = (g'.expand rule keepEscapes).result ∧
      (g.expand rule keepEscapes).trace = (g'.expand rule keepEscapes).trace ∧
      (g.expand rule keepEscapes).grammar.source = (g'.expand rule keepEscapes).grammar.source := by
  let g : Grammar α :=
    { symbols := .ofDocument d, modifiers, fallbacks := [], source, settings }
  let g' : Grammar α := { g with symbols := .ofDocument (d.redeclare symbol replacement) }
  have hbuild : ofDocument d modifiers [] source settings = .ok g :=
    ofDocument_of_valid hvalid modifiers [] source settings
  have hbuild' : ofDocument (d.redeclare symbol replacement) modifiers [] source settings =
      .ok g' :=
    ofDocument_of_valid (Document.validate_redeclare hvalid hreplacement) modifiers [] source
      settings
  have hvisited : ∀ x, d.Visits separator x → x.own.pushes = [] ∧ symbol ∉ x.own.tags := fun x hx =>
    ⟨Lint.pushes_own_of_survey hpushes hx, Lint.not_mem_tags_of_unreferenced hx hunreferenced⟩
  have hlaws : (Expansion.Regime.pushFree d (d.redeclare symbol replacement) separator
      (fun x => symbol ∉ x.own.tags) (fun _ => True) (fun _ => True)).Holds g.context :=
    Expansion.holds_redeclare rfl hseparator (fun x hx => (hvisited x hx).1)
      fun x hx => (hvisited x hx).2
  obtain ⟨hnode, hhalt, hstate, -⟩ := hlaws.expand settings.levels (Node.root rule)
    (d.throughout_rule hvisited hfind hrule) g.state g'.state ⟨rfl, rfl, rfl, rfl⟩
  have hnode' : (g.expandNode (.root rule)).node = (g'.expandNode (.root rule)).node := hnode
  have hhalt' : (g.expandNode (.root rule)).halt = (g'.expandNode (.root rule)).halt := hhalt
  refine ⟨g, g', hbuild, hbuild', ?_, ?_, ?_⟩
  · simp only [Expanded.result, halt_expand, node_expand, hnode', hhalt']
  · rw [trace_expand, trace_expand]
    exact congrArg List.reverse hstate.trace
  · rw [grammar_expand, grammar_expand]
    exact hstate.source

/-- The rule pops the symbol that is removed, and refers to one that was never there. -/
theorem expand_redeclare_popped :
    let d := documentOf [("a", ["#b#[u:POP]#c#"]), ("b", ["x", "y"]), ("u", ["z"])]
    let rule := "#b#[u:POP]#c#".toList
    .unreferenced ['u'] ∈ (lint d ['a'] ',').warnings ∧
      (d.redeclare ['u'] none).names = [['a'], ['b']] ∧
      ∃ g g', ofDocument d .empty [] (.fixed 0) {} = .ok g ∧
        ofDocument (d.redeclare ['u'] none) .empty [] (.fixed 0) {} = .ok g' ∧
        (g.expand rule true).result = (g'.expand rule true).result ∧
        (g.expand rule true).trace = (g'.expand rule true).trace ∧
        (g.expand rule true).grammar.source = (g'.expand rule true).grammar.source := by
  intro d rule
  have hunreferenced : .unreferenced ['u'] ∈ (lint d ['a'] ',').warnings := by decide +kernel
  have hfind : d.find? ['a'] = some (.many [rule]) := rfl
  exact ⟨hunreferenced, by decide +kernel,
    expand_redeclare rfl (by decide +kernel) hunreferenced (fun _ h => by cases h) hfind
      List.mem_cons_self .empty (.fixed 0) rfl true⟩

end Grammar

end TextGrammar
