import TextGrammar.Grammar
import TextGrammar.Proofs.Expansion.Account
import TextGrammar.Proofs.Expansion.Simulation

/-!
# Runs of a grammar

The expansions that a grammar can make: of a rule, of any node, or of a node without the sections
of the rule that it is expanded to. What an account says of expansions it says of these.
-/

namespace TextGrammar.Grammar

variable {α : Type} [Scalar α]

/-- `g.Runs node e`: expanding `node`, which may be the root for a rule, the grammar `g` makes the
expansion `e`. -/
inductive Runs (g : Grammar α) : Node → Expanded α → Prop
  | rule (levels : Nat) (rule : Text) (keepEscapes : Bool) :
    Runs g (Node.root rule) (g.expandWithin levels rule keepEscapes)
  | node (levels : Nat) (node : Node) : Runs g node (g.expandNodeWithin levels node)
  | shallow (node : Node) : Runs g node (g.expandNodeShallow node)

/-- A run leaves a state behind that its account relates to the state before it. -/
theorem Runs.account {g : Grammar α} {node : Node} {e : Expanded α} (h : g.Runs node e)
    {K : List Text → List Diagnostic → Expansion.State α → Expansion.State α → Prop}
    (hK : Expansion.Account g.context K) :
    ∃ found t, K [] found g.state t ∧ e.node.problems = node.problems ++ found ∧
      e.grammar = g.withState t ∧ e.trace = t.trace.reverse := by
  cases h with
  | rule levels rule keepEscapes =>
    obtain ⟨found, hfound, hk⟩ := hK.expand levels (Node.root rule) g.state
    refine ⟨found, _, hk, ?_⟩
    cases keepEscapes <;> exact ⟨hfound, rfl, rfl⟩
  | node levels node =>
    obtain ⟨found, hfound, hk⟩ := hK.expand levels node g.state
    exact ⟨found, _, hk, hfound, rfl, rfl⟩
  | shallow node =>
    obtain ⟨found, hfound, hk⟩ := hK.expandShallow g.settings.levels node g.state
    exact ⟨found, _, hk, hfound, rfl, rfl⟩

/-! ### Expansions of rules

A rule is expanded as its root node is; only the finished text of the root may change after that. -/

section Rules

variable (g : Grammar α) (rule : Text) (keepEscapes : Bool)

theorem node_expand :
    (g.expand rule keepEscapes).node =
      if keepEscapes then (g.expandNode (.root rule)).node
      else (g.expandNode (.root rule)).node.stripEscapes := by
  cases keepEscapes <;> rfl

theorem problems_expand :
    (g.expand rule keepEscapes).node.problems = (g.expandNode (.root rule)).node.problems := by
  cases keepEscapes <;> rfl

theorem halt_expand :
    (g.expand rule keepEscapes).halt = (g.expandNode (.root rule)).halt := by
  cases keepEscapes <;> rfl

theorem grammar_expand :
    (g.expand rule keepEscapes).grammar = (g.expandNode (.root rule)).grammar := by
  cases keepEscapes <;> rfl

theorem trace_expand :
    (g.expand rule keepEscapes).trace = (g.expandNode (.root rule)).trace := by
  cases keepEscapes <;> rfl

end Rules

/-- If expansions of a root node agree, the same is made of the rule. A change of the grammar that
leads from one to the other afterwards is all they differ in. -/
theorem expandWithin_of_agree {g g' : Grammar α} {levels levels' : Nat} {rule : Text}
    {R : Expansion.State α → Expansion.State α → Prop} {o o' : Expansion.Outcome α}
    (ho : Expansion.expand g.context levels (.root rule) g.state = o)
    (ho' : Expansion.expand g'.context levels' (.root rule) g'.state = o')
    (h : Expansion.Agree R o o') (htrace : o.state.trace = o'.state.trace)
    (change : Grammar α → Grammar α)
    (hchange : g'.withState o'.state = change (g.withState o.state)) (keepEscapes : Bool) :
    g'.expandWithin levels' rule keepEscapes =
      { g.expandWithin levels rule keepEscapes with
        grammar := change (g.expandWithin levels rule keepEscapes).grammar } := by
  subst ho ho'
  have hfinish : g'.expandNodeWithin levels' (.root rule) =
      { g.expandNodeWithin levels (.root rule) with
        grammar := change (g.expandNodeWithin levels (.root rule)).grammar } := by
    simp only [expandNodeWithin, finish, ← hchange, ← h.node, ← h.halt, ← htrace]
  unfold expandWithin
  rw [hfinish]
  cases keepEscapes <;> rfl

/-! ### Loading -/

section Loading

variable {d : Document α}

theorem load_of_valid (h : d.validate = .ok ()) (g : Grammar α) :
    (load d).run g = (.ok (), { g with symbols := .ofDocument d, fallbacks := [] }) := by
  unfold load
  rw [h]
  rfl

theorem load_of_refused {failure : Failure α} (h : d.validate = .error failure) (g : Grammar α) :
    (load d).run g = (.error failure, g) := by
  unfold load
  rw [h]
  rfl

theorem ofDocument_of_valid (h : d.validate = .ok ()) (modifiers : Registry)
    (fallbacks : List (Grammar α)) (source : Source α) (settings : Settings) :
    ofDocument d modifiers fallbacks source settings =
      .ok { symbols := .ofDocument d, modifiers, fallbacks, source, settings } := by
  simp only [ofDocument, load_of_valid h]

theorem eq_of_ofDocument {modifiers : Registry} {fallbacks : List (Grammar α)} {source : Source α}
    {settings : Settings} {g : Grammar α}
    (h : ofDocument d modifiers fallbacks source settings = .ok g) :
    d.validate = .ok () ∧
      g = { symbols := .ofDocument d, modifiers, fallbacks, source, settings } := by
  cases hd : d.validate with
  | ok =>
    rw [ofDocument_of_valid hd] at h
    exact ⟨rfl, (Except.ok.inj h).symm⟩
  | error failure =>
    simp only [ofDocument, load_of_refused hd] at h
    cases h

end Loading

/-- A document of rules of equal weight. -/
def documentOf (rules : List (String × List String)) : Document Float :=
  .ofList (rules.map fun r => (r.1.toList, .many (r.2.map (·.toList))))

/-- A grammar of rules of equal weight that draws nothing but zeros. -/
def ofRules (rules : List (String × List String)) : Grammar Float where
  symbols := .ofDocument (documentOf rules)
  modifiers := .empty
  fallbacks := []
  source := .fixed 0
  settings := {}

end TextGrammar.Grammar
