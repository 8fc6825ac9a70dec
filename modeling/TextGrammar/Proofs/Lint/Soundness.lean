import TextGrammar.Proofs.Grammar.Reachable
import TextGrammar.Proofs.Grammar.Termination
import TextGrammar.Proofs.Lint.PushFree

/-!
# What a check rules out

A check reads each rule on its own and follows no reference. All the same, if it finds no error but
missing exits in a document without pushes, no expansion comes to a malformed rule, to a tag of more
than one clause, or to a symbol without rules (`Grammar.expand_of_clean`): every rule that is
selected is one of the document, since every symbol that is looked up is declared and has a rule to
give. What is left is beyond a check: how deep the expansion may go, which modifiers are registered,
and pops, which have nothing to take away.
-/

namespace TextGrammar

variable {α : Type}

/-- Problems that are not in the rules of a document alone. -/
def Diagnostic.isBeyondCheck : Diagnostic → Bool
  | depthExceeded _ _ | missingModifier _ | popWithoutPush _ => true
  | _ => false

namespace Lint

/-- Nothing was found but missing exits. -/
structure Clean (d : Document α) (origin : Text) (separator : Char) : Prop where
  syntax_ok : ∀ symbol problem, .badSyntax symbol problem ∉ (lint d origin separator).errors
  unambiguous : ∀ symbol tag, .ambiguousTag symbol tag ∉ (lint d origin separator).errors
  resolved : ∀ symbol reference,
    .missingReference symbol reference ∉ (lint d origin separator).errors

/-- What a check makes sure of in each part: it scans cleanly, it is no tag of more than one clause,
and the symbol it refers to is declared. -/
structure Sound (d : Document α) (x : Section) : Prop where
  problems : x.own.problems = []
  ambiguous : x.own.ambiguous = []
  tags : ∀ tag ∈ x.own.tags, tag ∈ d.names

theorem Clean.sound {d : Document α} {origin : Text} {separator : Char}
    (h : Clean d origin separator) (hpushes : (survey d separator).pushes = []) {x : Section}
    (hx : d.Visits separator x) : Sound d x := by
  refine ⟨?_, ?_, fun tag htag => Decidable.byContradiction fun hmissing => ?_⟩
  · refine List.eq_nil_iff_forall_not_mem.2 fun problem hproblem => ?_
    obtain ⟨symbol, herror⟩ := exists_badSyntax hx hproblem
    exact h.syntax_ok symbol problem herror
  · refine List.eq_nil_iff_forall_not_mem.2 fun tag htag => ?_
    obtain ⟨symbol, herror⟩ := exists_ambiguousTag hx htag
    exact h.unambiguous symbol tag herror
  · obtain ⟨symbol, herror⟩ := exists_missingReference hx htag hmissing (by simp [hpushes])
    exact h.resolved symbol tag herror

end Lint

variable [Scalar α] {d : Document α} {origin : Text} {separator : Char}

theorem Document.exists_select (hvalid : d.validate = .ok ())
    (hproductive : ∀ e ∈ d.entries, e.2.Productive) {name : Text} (hname : name ∈ d.names)
    (fallbacks : List (Symbols α)) (source : Source α) :
    ∃ definition, d.find? name = some definition ∧ ∃ rule ∈ definition.rules,
      (Symbols.ofDocument d).select fallbacks name source = ⟨some rule, [], source.next.2⟩ := by
  obtain ⟨⟨_, definition⟩, he, rfl⟩ := List.mem_map.1 hname
  have hfind := Named.find?_eq_some.2 he
  exact ⟨definition, hfind, Symbols.exists_select_ofDocument hfind
    (validate_eq_ok.1 hvalid _ he) (hproductive _ he) fallbacks source⟩

theorem Expansion.holds_sound {c : Expansion.Context α}
    (hseparator : c.settings.separator = separator)
    (hvalid : d.validate = .ok ()) (hproductive : ∀ e ∈ d.entries, e.2.Productive)
    (hpushes : ∀ x, d.Visits separator x → x.own.pushes = [])
    (hsound : ∀ x, d.Visits separator x → Lint.Sound d x) :
    (Regime.pushFree d d separator (Lint.Sound d) (fun ds => ds.isBeyondCheck = true)
      (· = .exhausted)).Holds c := by
  refine Regime.holds_pushFree hseparator ?_ ?_ rfl (fun _ _ => rfl) (fun _ => rfl)
    (fun _ => rfl) ?_
  · intro y hy ds hds
    rw [hy.problems] at hds
    cases hds
  · intro y hy tag htag
    rw [hy.ambiguous] at htag
    cases htag
  · intro raw clause _ hread hy source
    have hname : clause.symbol ∈ d.names := hy.tags _ (by simp [Section.own_of_clause hread])
    obtain ⟨definition, hfind, rule, hrule, hselect⟩ :=
      d.exists_select hvalid hproductive hname c.fallbacks source
    rw [hselect]
    refine ⟨rfl, nofun, fun rule' h => ?_⟩
    obtain rfl : rule = rule' := Option.some.inj h
    exact d.throughout_rule (fun y hy => ⟨hpushes y hy, hsound y hy⟩) hfind hrule

namespace Grammar

/-- **What a check finds nothing wrong with expands.**  In a document without pushes, let every
symbol have a rule to give, and let a check find no bad syntax, no ambiguous tag and no missing
reference. Then a grammar of the document expands every rule of it, under any cap, with any
modifiers, fallbacks and source, and all it records is that the cap was reached, that a modifier is
not registered, or that a pop found nothing pushed; and of an empty rule that it is empty. -/
theorem expand_of_clean (hvalid : d.validate = .ok ())
    (hproductive : ∀ e ∈ d.entries, e.2.Productive)
    (hpushes : (Lint.survey d separator).pushes = [])
    (hclean : Lint.Clean d origin separator) {name rule : Text} {definition : Definition α}
    (hfind : d.find? name = some definition) (hrule : rule ∈ definition.rules)
    (modifiers : Registry) (fallbacks : List (Grammar α)) (source : Source α) {settings : Settings}
    (hseparator : settings.separator = separator) {cap : Nat}
    (hcap : settings.maxDepth = some cap) (keepEscapes : Bool) :
    ∃ g node, ofDocument d modifiers fallbacks source settings = .ok g ∧
      (g.expand rule keepEscapes).result = .ok node ∧
      ∀ ds ∈ node.problems, ds.isBeyondCheck = true ∨ rule = [] ∧ ds = .emptyInput := by
  let g : Grammar α := { symbols := .ofDocument d, modifiers, fallbacks, source, settings }
  have hbuild : ofDocument d modifiers fallbacks source settings = .ok g :=
    ofDocument_of_valid hvalid modifiers fallbacks source settings
  have hvisited : ∀ x, d.Visits separator x → x.own.pushes = [] ∧ Lint.Sound d x := fun x hx =>
    ⟨Lint.pushes_own_of_survey hpushes hx, hclean.sound hpushes hx⟩
  have hlaws : (Expansion.Regime.pushFree d d separator (Lint.Sound d)
      (fun ds => ds.isBeyondCheck = true) (· = .exhausted)).Holds g.context :=
    Expansion.holds_sound hseparator hvalid hproductive (fun x hx => (hvisited x hx).1)
      fun x hx => (hvisited x hx).2
  have hmeets := hlaws.expand settings.levels (Node.root rule)
    (d.throughout_rule hvisited hfind hrule) g.state g.state ⟨rfl, rfl, rfl, rfl⟩
  -- the regime allows no halt but one that does not happen under a cap
  have hhalt : (g.expand rule keepEscapes).halt = none := by
    rw [halt_expand, Option.eq_none_iff_forall_ne_some]
    intro halt h
    have hexhausted : halt = .exhausted := hmeets.allowed halt h
    exact halt_expandNode_ne_exhausted (g := g) hcap (.root rule) (hexhausted ▸ h)
  refine ⟨g, (g.expand rule keepEscapes).node, hbuild, by simp only [Expanded.result, hhalt], ?_⟩
  intro ds hds
  rw [problems_expand] at hds
  rcases hmeets.problem ds hds with h | h
  · cases rule with
    | nil => exact .inr ⟨rfl, List.mem_singleton.1 h⟩
    | cons => cases h
  · exact .inl h

/-- Two symbols that refer to each other, through a tag that pops what was never pushed and through
a rule that is evaluated, with a modifier that is not registered. -/
theorem expand_of_clean_mutual :
    let d := documentOf [("a", ["#[b:POP]b#", "x"]), ("b", ["[#a.m#]y", ""])]
    let rule := "#[b:POP]b#".toList
    let settings : Settings := { maxDepth := some 3 }
    (lint d ['o'] ',').errors = [] ∧
      ∃ g node, ofDocument d .empty [] (.fixed 0) settings = .ok g ∧
        (g.expand rule true).result = .ok node ∧
        ∀ ds ∈ node.problems, ds.isBeyondCheck = true ∨ rule = [] ∧ ds = .emptyInput := by
  intro d rule settings
  have herrors : (lint d ['o'] ',').errors = [] := by decide +kernel
  have hentries : d.entries = [(['a'], .many [rule, ['x']]),
      (['b'], .many ["[#a.m#]y".toList, []])] := rfl
  have hproductive : ∀ e ∈ d.entries, e.2.Productive := by
    simp only [hentries, List.forall_mem_cons]
    exact ⟨⟨nofun, nofun⟩, ⟨nofun, nofun⟩, nofun⟩
  have hclean : Lint.Clean d ['o'] ',' := by
    constructor <;> intro symbol finding <;> simp [herrors]
  have hfind : d.find? ['a'] = some (.many [rule, ['x']]) := rfl
  exact ⟨herrors, expand_of_clean rfl hproductive (by decide +kernel) hclean hfind
    List.mem_cons_self .empty [] (.fixed 0) rfl rfl true⟩

end Grammar

end TextGrammar
