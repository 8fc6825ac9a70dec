import TextGrammar.Proofs.Expansion.Follow
import TextGrammar.Proofs.Grammar.Runs

/-!
# More to find

What a grammar finds under a name, among its symbols, its fallbacks or its modifiers, it still
finds when fallbacks are added behind those it has and modifiers under names that are free. So an
expansion that has found everything it looked for is not changed by them (`Grammar.expand_enrich`).

Whether everything was found is told by the reports of the whole expansion: a name that is missing
is reported also where the text is thrown away.
-/

namespace TextGrammar

variable {α : Type}

/-! ### Lookups -/

theorem Registry.find?_foldl_insert (r : Registry) {modifiers : List (Text × Modifier)}
    {name : Text} (h : ∀ m ∈ modifiers, m.1 ≠ name) :
    (modifiers.foldl (fun r m => r.insert m.1 m.2) r).find? name = r.find? name := by
  induction modifiers generalizing r with
  | nil => rfl
  | cons m modifiers ih =>
    obtain ⟨hm, hmodifiers⟩ := List.forall_mem_cons.1 h
    rw [List.foldl_cons, ih _ hmodifiers, Named.find?_insert, if_neg hm.symm]

theorem Symbols.resolve?_append {t : Symbols α} {fallbacks : List (Symbols α)} {name : Text}
    {store : Store α} (h : t.resolve? fallbacks name = some store) (more : List (Symbols α)) :
    t.resolve? (fallbacks ++ more) name = some store := by
  unfold resolve? at h ⊢
  rw [List.findSome?_append, ← Option.or_assoc, h, Option.some_or]

/-! ### Contexts -/

namespace Expansion

/-- What the first context finds the second one finds too. -/
structure Context.Enriched (c c' : Context α) : Prop where
  settings : c'.settings = c.settings
  fallbacks : ∃ more, c'.fallbacks = c.fallbacks ++ more
  modifiers : ∀ name f, c.modifiers.find? name = some f → c'.modifiers.find? name = some f

/-- It says that something was looked for and not found. -/
def Misses : Diagnostic → Prop
  | .missingSymbol _ | .emptySymbol _ | .missingModifier _ => True
  | _ => False

/-- Everything is found, and there is no halt. -/
def Bounds.found : Bounds α where
  problem d := ¬Misses d
  halt _ := False
  source _ := True

theorem misses_unresolved (t : Symbols α) (name : Text) : Misses (t.unresolved name) := by
  rw [Symbols.unresolved_eq]
  split <;> trivial

variable [Scalar α] {c c' : Context α}

theorem Context.Enriched.select (hc : c.Enriched c') (s : State α) (name : Text)
    (hfound : ∀ d ∈ (s.select c name).2.1, ¬Misses d) : s.select c' name = s.select c name := by
  obtain ⟨more, hmore⟩ := hc.fallbacks
  simp only [State.select] at hfound ⊢
  cases h : s.symbols.resolve? c.fallbacks name with
  | none =>
    rw [Symbols.select_of_unresolved h] at hfound
    exact absurd (misses_unresolved s.symbols name) (hfound _ List.mem_cons_self)
  | some store =>
    rw [hmore, Symbols.select_of_resolved h,
      Symbols.select_of_resolved (Symbols.resolve?_append h more)]

theorem Context.Enriched.hold (hc : c.Enriched c') : Bounds.found.Hold Eq c c' where
  separator := by rw [hc.settings]
  uncapped depth h := by rwa [hc.settings]
  capped depth cap symbol h _ := by rwa [hc.settings]
  registered name h := by
    cases hfind : c.modifiers.find? name with
    | none => exact absurd trivial (h hfind)
    | some f => exact hc.modifiers name f hfind
  enter h symbol := by rw [h]
  push h scope name rules := by rw [h]
  pop_problems h scope name := by rw [h]
  pop h scope name := by rw [h]
  select := by
    rintro s _ rfl name hfound -
    rw [hc.select s name hfound]
    exact ⟨rfl, rfl, rfl⟩
  unseen _ h := h.elim
  undrawn _ _ := trivial

end Expansion

/-! ### Grammars -/

namespace Grammar

/-- The grammar with modifiers registered and fallbacks added behind those it has. -/
def enrich (g : Grammar α) (modifiers : List (Text × Modifier)) (fallbacks : List (Grammar α)) :
    Grammar α :=
  fallbacks.foldl addFallback (g.register modifiers)

theorem enrich_eq (g : Grammar α) (modifiers : List (Text × Modifier))
    (fallbacks : List (Grammar α)) :
    g.enrich modifiers fallbacks =
      { g.register modifiers with fallbacks := g.fallbacks ++ fallbacks } := by
  have hadd : ∀ g : Grammar α,
      fallbacks.foldl addFallback g = { g with fallbacks := g.fallbacks ++ fallbacks } := by
    induction fallbacks with
    | nil =>
      intro g
      cases g
      simp only [List.foldl_nil, List.append_nil]
    | cons fallback fallbacks ih =>
      intro g
      rw [List.foldl_cons, ih, addFallback, List.append_assoc]
      rfl
  exact hadd (g.register modifiers)

variable {g : Grammar α} {modifiers : List (Text × Modifier)} {rule : Text} {keepEscapes : Bool}

theorem enriched_enrich (hnew : ∀ m ∈ modifiers, g.modifiers.contains m.1 = false)
    (fallbacks : List (Grammar α)) :
    g.context.Enriched (g.enrich modifiers fallbacks).context := by
  rw [enrich_eq]
  have hmap : (g.fallbacks ++ fallbacks).map (·.symbols) =
      g.fallbacks.map (·.symbols) ++ fallbacks.map (·.symbols) := List.map_append
  refine ⟨rfl, ⟨_, hmap⟩, fun name f hf => ?_⟩
  have hother : ∀ m ∈ modifiers, m.1 ≠ name := by
    rintro m hm rfl
    exact Bool.false_ne_true ((hnew m hm).symm.trans (Named.contains_iff.2 ⟨f, hf⟩))
  exact (Registry.find?_foldl_insert g.modifiers hother).trans hf

/-- **What is added is not found instead of what is there.**  If an expansion is finished and
reports no symbol or modifier to be missing and no symbol to be empty, then with any fallbacks added
behind those of the grammar and any modifiers registered under free names it is the same: the tree
with its texts and reports, what was done and drawn, and the symbols afterwards. -/
theorem expand_enrich [Scalar α]
    (hdone : (g.expand rule keepEscapes).halt = none)
    (hfound : ∀ name,
      .missingSymbol name ∉ (g.expand rule keepEscapes).node.problems ∧
        .emptySymbol name ∉ (g.expand rule keepEscapes).node.problems ∧
        .missingModifier name ∉ (g.expand rule keepEscapes).node.problems)
    (hnew : ∀ m ∈ modifiers, g.modifiers.contains m.1 = false) (fallbacks : List (Grammar α)) :
    let e := g.expand rule keepEscapes
    (g.enrich modifiers fallbacks).expand rule keepEscapes =
      { e with grammar := e.grammar.enrich modifiers fallbacks } := by
  intro e
  rw [halt_expand] at hdone
  rw [problems_expand] at hfound
  have hfound' : ∀ d ∈ (g.expandNode (.root rule)).node.problems, ¬Expansion.Misses d := by
    intro d hd hmisses
    cases d with
    | missingSymbol name => exact (hfound name).1 hd
    | emptySymbol name => exact (hfound name).2.1 hd
    | missingModifier name => exact (hfound name).2.2 hd
    | _ => exact hmisses
  let o := Expansion.expand g.context g.settings.levels (.root rule) g.state
  let g' := g.enrich modifiers fallbacks
  have hsettings : g'.settings = g.settings := (enriched_enrich hnew fallbacks).settings
  have hstate : g'.state = g.state := by simp only [g', enrich_eq]; rfl
  let o' := Expansion.expand g'.context g'.settings.levels (.root rule) g'.state
  have hsame : Expansion.Agree Eq o o' := by
    simp only [o', hsettings, hstate]
    exact (enriched_enrich hnew fallbacks).hold.expand g.settings.levels (.root rule) _ _ rfl
      ⟨hfound', fun reason h => (nomatch hdone.symm.trans h), trivial⟩
  have hgrammar : g'.withState o'.state = (g.withState o.state).enrich modifiers fallbacks := by
    rw [← hsame.state]
    simp only [g', enrich_eq]
    rfl
  exact expandWithin_of_agree rfl rfl hsame (congrArg _ hsame.state)
    (·.enrich modifiers fallbacks) hgrammar keepEscapes

/-- The names come from the symbols, from the fallback and from a push; what is added has all of
them. -/
theorem expand_enrich_shadowed :
    let g := ((ofRules [("a", ["#b##c#"])]).addFallback (ofRules [("b", ["y"])])).register
      [("up".toList, fun text _ => '!' :: text)]
    let more := ofRules [("a", ["1"]), ("b", ["2"]), ("c", ["3"])]
    let low : Text × Modifier := ("low".toList, fun _ _ => [])
    let e := g.expand "#[c:z]a.up#".toList false
    e.halt = none ∧ e.node.text = "!yz".toList ∧ e.node.problems = [] ∧
      (g.enrich [low] [more]).expand "#[c:z]a.up#".toList false =
        { e with grammar := e.grammar.enrich [low] [more] } := by
  intro g more low e
  have hdone : e.halt = none := by decide +kernel
  have hproblems : e.node.problems = [] := by decide +kernel
  have hfound : ∀ name, .missingSymbol name ∉ e.node.problems ∧
      .emptySymbol name ∉ e.node.problems ∧ .missingModifier name ∉ e.node.problems := by
    rw [hproblems]
    exact fun _ => ⟨List.not_mem_nil, List.not_mem_nil, List.not_mem_nil⟩
  have hnew : ∀ m ∈ [low], g.modifiers.contains m.1 = false :=
    List.forall_mem_singleton.2 (by decide +kernel)
  exact ⟨hdone, by decide +kernel, hproblems, expand_enrich hdone hfound hnew [more]⟩

end Grammar

end TextGrammar
