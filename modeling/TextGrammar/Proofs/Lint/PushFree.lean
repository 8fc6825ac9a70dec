import TextGrammar.Proofs.Expansion.Regime
import TextGrammar.Proofs.Lint.Visits
import TextGrammar.Proofs.Markup.Closed
import TextGrammar.Proofs.Selection

/-!
# Expansions without pushes

Whatever part of a rule an expansion comes to, a check visits it (`Expansion.Inside.visits`). The
two look at a text of a tag from different places, and see the same actions in it because a tag that
was cut out of a rule is closed.

So in a grammar of rules without pushes nothing is ever pushed, pops change nothing, and the symbols
stay as the document declares them. `Regime.pushFree` is the regime of such expansions, from one
document or from two that give the same for every symbol that is looked up
(`Regime.holds_pushFree`): what may be recorded, and what rules may be selected, is a matter of what
holds of all parts that are visited.
-/

namespace TextGrammar

variable {α : Type}

/-- `p` holds of every part that a check of `x` visits. If `x` is a tag, it is one that was cut out
of a rule. -/
structure Section.Throughout (separator : Char) (p : Section → Prop) (x : Section) : Prop where
  closed : x.kind = .tag → x.Closed
  visited : ∀ y, x.Visits separator y → p y

namespace Section

variable {separator : Char} {p : Section → Prop} {x y : Section}

theorem Throughout.self (h : x.Throughout separator p) : p x := h.visited x .refl

theorem own_of_text (h : x.kind = .plain ∨ x.kind = .unparsed) :
    x.own.tags = [] ∧ x.own.pushes = [] := by
  rcases h with h | h <;> simp [own, h]

theorem kind_of_visits_placeholder {raw : Text} {clause : Tag.Clause} (htag : Closed ⟨.tag, raw⟩)
    (hread : Tag.read raw = .clause clause)
    (h : Visits separator ⟨.unparsed, Text.placeholder clause.symbol⟩ y) :
    y.kind = .plain ∨ y.kind = .unparsed := by
  have hsections := scan_placeholder htag hread
  have hy : y = ⟨.unparsed, Text.placeholder clause.symbol⟩ ∨
      y = ⟨.plain, Text.placeholder clause.symbol⟩ := by
    refine h.of_closed (p := fun y => y = _ ∨ y = _) (.inl rfl) ?_
    rintro a (rfl | rfl) b hb
    · exact .inr (by simpa [parts, hsections] using hb)
    · simp [parts] at hb
  rcases hy with rfl | rfl
  · exact .inr rfl
  · exact .inl rfl

end Section

/-- The rules of a document hold throughout what all parts that are visited do. -/
theorem Document.throughout_rule {d : Document α} {separator : Char} {p : Section → Prop}
    (hd : ∀ y, d.Visits separator y → p y) {name rule : Text} {definition : Definition α}
    (hfind : d.find? name = some definition) (hrule : rule ∈ definition.rules) :
    Section.Throughout separator p ⟨.unparsed, rule⟩ :=
  ⟨nofun, fun y hy => hd y ⟨_, Named.find?_eq_some.1 hfind, rule, hrule, hy⟩⟩

/-- So does what is selected for the symbol of a tag, if there are no fallbacks: it is a rule of the
document, or a placeholder. -/
theorem Document.throughout_selected [Scalar α] {d : Document α} {separator : Char}
    {p : Section → Prop} (hd : ∀ y, d.Visits separator y → p y)
    (htext : ∀ y : Section, y.kind = .plain ∨ y.kind = .unparsed → p y) {raw : Text}
    {clause : Tag.Clause} (htag : Section.Closed ⟨.tag, raw⟩)
    (hread : Tag.read raw = .clause clause)
    {source : Source α} {rule : Text}
    (h : ((Symbols.ofDocument d).select [] clause.symbol source).rule = some rule) :
    Section.Throughout separator p ⟨.unparsed, rule⟩ := by
  rcases Symbols.rule_select_ofDocument h with ⟨definition, hfind, hrule⟩ | rfl
  · exact d.throughout_rule hd hfind hrule
  · exact ⟨nofun, fun y hy => htext y (Section.kind_of_visits_placeholder htag hread hy)⟩

namespace Expansion

variable {c : Context α} {node x : Node} {p : Section → Prop}

theorem part_mem_parts_of_mem_actionNodes {depth : Nat} {raw : Text}
    (h : x ∈ actionNodes c depth (Action.read raw)) :
    x.part ∈ Section.parts c.settings.separator ⟨.action, raw⟩ := by
  simp only [Section.parts]
  cases hread : Action.read raw with
  | pop target => simp [hread, actionNodes] at h
  | push target rules =>
    rw [hread] at h
    obtain ⟨text, htext, rfl⟩ := List.mem_map.1 h
    exact List.mem_map_of_mem htext
  | evaluate rule =>
    rw [hread] at h
    rw [List.mem_singleton.1 h]
    exact List.mem_singleton_self _

theorem Performs.exists_visits {scope : Scope} {action : Action} {separator : Char}
    (h : Performs node scope action) (hnode : node.part.kind = .tag → node.part.Closed) :
    ∃ raw, Action.read raw = action ∧ node.part.Visits separator ⟨.action, raw⟩ := by
  cases h with
  | bare hkind =>
    have hpart : node.part = ⟨.action, node.raw⟩ := by simp only [Node.part, hkind]
    exact ⟨node.raw, rfl, hpart ▸ .refl⟩
  | @before clause q hkind hread hq =>
    have hpart : node.part = ⟨.tag, node.raw⟩ := by simp only [Node.part, hkind]
    rw [hpart] at hnode ⊢
    obtain ⟨kind, raw⟩ := q
    obtain rfl : kind = .action := (hnode rfl).preaction hread hq
    exact ⟨raw, rfl, .single (by simpa only [Section.parts, hread] using hq)⟩

/-- **What a node passes on is a part that a check visits**, if it is part of the node's text. -/
theorem Inside.visits (h : Inside c node x) (hnode : node.part.kind = .tag → node.part.Closed) :
    node.part.Visits c.settings.separator x.part := by
  cases h with
  | part hkind hx =>
    obtain ⟨-, -, hmem⟩ := Node.of_mem_ofSections hx
    exact .single (by simpa only [Section.parts, Node.part, hkind] using hmem)
  | action hkind hx =>
    obtain ⟨raw, hread, hvisits⟩ := (Performs.bare hkind).exists_visits hnode
    rw [← hread] at hx
    exact hvisits.tail (part_mem_parts_of_mem_actionNodes hx)
  | preaction hkind hread hq hx =>
    obtain ⟨raw, hraw, hvisits⟩ := (Performs.before hkind hread hq).exists_visits hnode
    rw [← hraw] at hx
    exact hvisits.tail (part_mem_parts_of_mem_actionNodes hx)

/-- Only a section may be a tag, and then it was cut out of a rule. -/
theorem Inside.closed (h : Inside c node x) (htag : x.part.kind = .tag) : x.part.Closed := by
  cases h with
  | part hkind hx =>
    obtain ⟨-, -, hmem⟩ := Node.of_mem_ofSections hx
    exact closed_of_mem_scan hmem (by rw [htag]; simp)
  | action _ hx | preaction _ _ _ hx =>
    obtain ⟨text, rfl, -⟩ := of_mem_actionNodes hx
    cases htag

end Expansion

theorem Section.Throughout.inside {c : Expansion.Context α} {node x : Node} {p : Section → Prop}
    (h : node.part.Throughout c.settings.separator p) (hx : Expansion.Inside c node x) :
    x.part.Throughout c.settings.separator p :=
  ⟨hx.closed, fun y hy => h.visited y ((hx.visits h.closed).trans hy)⟩

namespace Expansion

/-! ### The regime -/

/-- The symbols are as the documents declare them, and the source and the history are the same. -/
structure Declared (d d' : Document α) (s t : State α) : Prop where
  left : s.symbols = .ofDocument d
  right : t.symbols = .ofDocument d'
  source : s.source = t.source
  trace : s.trace = t.trace

/-- Expansions that come to no push, and to parts of which `p` holds. -/
def Regime.pushFree (d d' : Document α) (separator : Char) (p : Section → Prop)
    (problem : Diagnostic → Prop) (halt : Halt → Prop) : Regime α where
  part := Section.Throughout separator fun y => y.own.pushes = [] ∧ p y
  states := Declared d d'
  problem
  halt

variable [Scalar α] {c : Context α} {d d' : Document α} {separator : Char} {p : Section → Prop}
  {problem : Diagnostic → Prop} {halt : Halt → Prop}

/-- **The laws of expansions without pushes.**  It is enough that what the parts report is allowed,
and that the two documents give the same for the symbols of tags, by rules that `p` holds throughout
of. -/
theorem Regime.holds_pushFree (hseparator : c.settings.separator = separator)
    (hproblems : ∀ y, p y → ∀ ds ∈ y.own.problems, problem ds)
    (hambiguous : ∀ y, p y → ∀ tag ∈ y.own.ambiguous, halt (.ambiguousTag tag))
    (hexhausted : halt .exhausted) (hcapped : ∀ symbol cap, problem (.depthExceeded symbol cap))
    (hunregistered : ∀ name, problem (.missingModifier name))
    (hpop : ∀ name, problem (.popWithoutPush name))
    (hselect : ∀ {raw clause}, Section.Closed ⟨.tag, raw⟩ → Tag.read raw = .clause clause →
      p ⟨.tag, raw⟩ → ∀ source,
        (Symbols.ofDocument d).select c.fallbacks clause.symbol source =
            (Symbols.ofDocument d').select c.fallbacks clause.symbol source ∧
          (∀ ds ∈ ((Symbols.ofDocument d).select c.fallbacks clause.symbol source).problems,
            problem ds) ∧
          ∀ rule, ((Symbols.ofDocument d).select c.fallbacks clause.symbol source).rule =
            some rule → Section.Throughout separator (fun y => y.own.pushes = [] ∧ p y)
              ⟨.unparsed, rule⟩) :
    (Regime.pushFree d d' separator p problem halt).Holds c where
  inside h hx := by
    subst hseparator
    exact h.inside hx
  scanned h := hproblems _ h.self.2
  ambiguous h hread := hambiguous _ h.self.2 _ (by simp [Section.own_of_ambiguous hread])
  clause h hread ds hds :=
    hproblems _ h.self.2 ds (by simpa [Section.own_of_clause hread] using hds)
  exhausted := hexhausted
  capped := hcapped
  unregistered := hunregistered
  enter h symbol := ⟨h.left, h.right, h.source, by simp only [State.enter, h.trace]⟩
  push h hact := by
    -- a push would be visited, and then be among the references
    obtain ⟨raw, hread, hvisits⟩ := hact.exists_visits h.closed
    have hpushes := (h.visited _ hvisits).1
    rw [Section.own_of_push hread] at hpushes
    cases hpushes
  pop h scope name := by
    simp only [State.pop, h.left, h.right, Symbols.pop_ofDocument]
    exact ⟨rfl, rfl, h.source, by rw [h.trace]⟩
  pop_problems h scope name := by
    simp only [State.pop, h.left, h.right, Symbols.pop_ofDocument, List.mem_singleton, forall_eq,
      true_and]
    exact hpop name
  select h hread s t hst := by
    have hsame := (hselect (h.closed rfl) hread h.self.2 t.source).1
    refine ⟨hst.left, hst.right, ?_, hst.trace⟩
    simp only [State.select, hst.left, hst.right, hst.source, hsame]
  select_problems h hread s t hst := by
    obtain ⟨hsame, hproblem, -⟩ := hselect (h.closed rfl) hread h.self.2 t.source
    simp only [State.select, hst.left, hst.right, hst.source, ← hsame, true_and]
    exact hproblem
  select_rule h hread s t hst := by
    obtain ⟨hsame, -, hrule⟩ := hselect (h.closed rfl) hread h.self.2 t.source
    simp only [State.select, hst.left, hst.right, hst.source, ← hsame, true_and]
    exact hrule

end Expansion

end TextGrammar
