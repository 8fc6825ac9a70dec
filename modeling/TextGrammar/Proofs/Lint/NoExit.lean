import TextGrammar.Proofs.Expansion.Shows
import TextGrammar.Proofs.Grammar.Termination
import TextGrammar.Proofs.Lint.Soundness

/-!
# Symbols without exit

A check finds that a symbol has no exit when some part of each of its rules refers back to it. In a
document without pushes this is no false alarm: whichever rules are drawn, an expansion comes to the
symbol again and again, deeper each time, until it lies below the cap
(`Grammar.expand_of_noExit`).

What a check visits an expansion comes to as well, a text of an action for that action
(`Expansion.exists_inside_of_visits`), unless a tag has no clause, which is never run, or more than
one, which halts. From there on the argument is an induction along the nodes that are passed on: a
part that refers to the symbol is inside the node, or the node is a tag of the symbol itself, and
then it is below the cap or a rule of the symbol is selected, in which there is such a part again.
-/

namespace TextGrammar

variable {α : Type}

namespace Expansion

variable {c : Context α} {node x : Node}

theorem exists_mem_actionNodes {depth : Nat} {raw : Text} {y : Section}
    (h : y ∈ Section.parts c.settings.separator ⟨.action, raw⟩) :
    ∃ x ∈ actionNodes c depth (Action.read raw), x.part = y := by
  simp only [Section.parts] at h
  cases hread : Action.read raw with
  | pop target => simp [hread] at h
  | push target rules =>
    simp only [hread, List.mem_map] at h
    obtain ⟨text, htext, rfl⟩ := h
    exact ⟨Node.nested depth text, List.mem_map_of_mem htext, rfl⟩
  | evaluate rule =>
    simp only [hread, List.mem_singleton] at h
    exact ⟨Node.nested depth rule, List.mem_singleton_self _, h.symm⟩

theorem exists_mem_ofSections {depth : Nat} {sections : List Section} {y : Section}
    (h : y ∈ sections) : ∃ x ∈ Node.ofSections depth sections, x.part = y := by
  obtain ⟨i, hi, rfl⟩ := List.mem_iff_getElem.1 h
  exact ⟨_, List.mem_mapIdx.2 ⟨i, hi, rfl⟩, rfl⟩

/-- **What a check visits an expansion comes to**: to look for a part that refers to a symbol, one
may go on inside the node, unless the node refers to the symbol itself. -/
theorem exists_inside_of_visits {y : Section} {symbol : Text}
    (hnode : node.part.kind = .tag → node.part.Closed ∧ Tag.read node.raw ≠ .silent)
    (h : node.part.Visits c.settings.separator y) (hsymbol : symbol ∈ y.own.tags) :
    (∃ clause, node.kind = .tag ∧ Tag.read node.raw = .clause clause ∧ clause.symbol = symbol) ∨
      ∃ x, Inside c node x ∧ x.part.Visits c.settings.separator y := by
  rcases Relation.ReflTransGen.cases_head h with rfl | ⟨z, hz, hzy⟩
  · exact .inl (Section.exists_clause_of_mem_tags hsymbol)
  · refine .inr ?_
    cases hkind : node.kind with
    | plain => simp [Section.parts, Node.part, hkind] at hz
    | unparsed =>
      simp only [Section.parts, Node.part, hkind] at hz
      obtain ⟨x, hx, rfl⟩ := exists_mem_ofSections hz
      exact ⟨x, .part hkind hx, hzy⟩
    | action =>
      simp only [Node.part, hkind] at hz
      obtain ⟨x, hx, rfl⟩ := exists_mem_actionNodes hz
      exact ⟨x, .action hkind hx, hzy⟩
    | tag =>
      simp only [Section.parts, Node.part, hkind] at hz
      obtain ⟨hclosed, hsilent⟩ := hnode hkind
      cases hread : Tag.read node.raw with
      | ambiguous => simp [hread] at hz
      | silent => exact absurd hread hsilent
      | clause clause =>
        simp only [hread] at hz
        -- an action before the clause is no node, but what it expands are
        have hpart : node.part = ⟨.tag, node.raw⟩ := by simp only [Node.part, hkind]
        obtain ⟨kind, raw⟩ := z
        obtain rfl : kind = .action := (hpart ▸ hclosed).preaction hread hz
        rcases Relation.ReflTransGen.cases_head hzy with rfl | ⟨w, hw, hwy⟩
        · obtain ⟨_, htag, -⟩ := Section.exists_clause_of_mem_tags hsymbol
          cases htag
        · obtain ⟨x, hx, rfl⟩ := exists_mem_actionNodes hw
          exact ⟨x, .preaction hkind hread hz hx, hwy⟩

end Expansion

/-! ### Back to the symbol -/

section NoExit

variable [Scalar α] {d : Document α} {symbol : Text} {definition : Definition α}

/-- A tag that a check looks at has a clause. -/
def Section.HasClause (x : Section) : Prop := x.kind = .tag → Tag.read x.raw ≠ .silent

namespace Expansion

variable {c : Context α} {cap levels : Nat}

/-- Expansions that come to no tag without a clause. -/
abbrev Regime.eloquent (d : Document α) (separator : Char) : Regime α :=
  .pushFree d d separator Section.HasClause (fun _ => True) (fun _ => True)

theorem holds_eloquent (hfallbacks : c.fallbacks = [])
    (hvisited : ∀ x, d.Visits c.settings.separator x → x.own.pushes = [] ∧ x.HasClause) :
    (Regime.eloquent d c.settings.separator).Holds c := by
  refine Regime.holds_pushFree rfl (fun _ _ _ _ => trivial) (fun _ _ _ _ => trivial) trivial
    (fun _ _ => trivial) (fun _ => trivial) (fun _ => trivial) ?_
  intro raw clause htag hread _ source
  rw [hfallbacks]
  refine ⟨rfl, fun _ _ => trivial, fun rule hrule => ?_⟩
  refine d.throughout_selected hvisited (fun y hy => ⟨(Section.own_of_text hy).2, ?_⟩) htag hread
    hrule
  intro hkind
  rcases hy with hy | hy <;> rw [hkind] at hy <;> cases hy

/-- The rules of a symbol without exit, each of which comes back to it. -/
structure Recurs (d : Document α) (separator : Char) (symbol : Text) (definition : Definition α) :
    Prop where
  find : d.find? symbol = some definition
  fault : definition.fault? = none
  productive : definition.Productive
  back : ∀ rule ∈ definition.rules,
    ∃ y, Section.Visits separator ⟨.unparsed, rule⟩ y ∧ symbol ∈ y.own.tags

/-- If nodes that refer to the symbol show a problem, then so does looking the symbol up: a rule of
it is selected, and some section of the rule refers to the symbol. -/
theorem Recurs.shows_resolve {separator : Char} (h : Recurs d separator symbol definition)
    {go : Expander α} {ds : Diagnostic} {n : Node} {t : State α}
    (huncapped : c.settings.maxDepth.filter (· < n.depth) = none) (ht : Declared d d t t)
    (hstates : ∀ rule ∈ definition.rules,
      ∀ x ∈ Node.ofSections (n.depth + 1) (scan rule).sections, ∀ u, Declared d d u u →
        Declared d d (go x u).state (go x u).state)
    (hback : ∀ rule ∈ definition.rules,
      ∀ x ∈ Node.ofSections (n.depth + 1) (scan rule).sections, ∀ y, x.part.Visits separator y →
        symbol ∈ y.own.tags → ∀ u, Declared d d u u → (go x u).Shows ds) :
    (resolve c go symbol n t).Shows ds := by
  obtain ⟨rule, hrule, hselect⟩ := Symbols.exists_select_ofDocument h.find h.fault h.productive
    c.fallbacks t.source
  have hselected : (t.select c symbol).1 = some rule := by
    simp only [State.select, ht.left, hselect]
  have hstate : Declared d d (t.select c symbol).2.2 (t.select c symbol).2.2 :=
    ⟨ht.left, ht.right, rfl, rfl⟩
  refine shows_resolve_of_selected huncapped hselected ?_
  obtain ⟨y, hy, hsymbol⟩ := h.back rule hrule
  rcases Relation.ReflTransGen.cases_head hy with rfl | ⟨w, hw, hwy⟩
  · cases hsymbol
  · obtain ⟨x, hx, rfl⟩ : ∃ x ∈ Node.ofSections (n.depth + 1) (scan rule).sections, x.part = w :=
      exists_mem_ofSections hw
    exact shows_expandRule (I := fun u => Declared d d u u) (hstates rule hrule) hx
      (hback rule hrule x hx y hwy hsymbol) hstate

/-- **Whatever refers to the symbol shows that the cap was exceeded for it.** -/
theorem Recurs.shows (h : Recurs d c.settings.separator symbol definition)
    (hcap : c.settings.maxDepth = some cap) (hlevels : cap < levels) (hfallbacks : c.fallbacks = [])
    (hvisited : ∀ x, d.Visits c.settings.separator x → x.own.pushes = [] ∧ x.HasClause)
    (node : Node) :
    (Regime.eloquent d c.settings.separator).part node.part → node.expanded = false →
      ∀ y, node.part.Visits c.settings.separator y → symbol ∈ y.own.tags →
        ∀ s, Declared d d s s → (expand c levels node s).Shows (.depthExceeded symbol cap) := by
  have hlaws := holds_eloquent hfallbacks hvisited
  have hgo := hlaws.expand levels
  induction node using (wellFounded_passesOn hcap).induction with
  | _ node ih =>
    intro hpart hfresh y hy hsymbol s hs
    rw [expand_eq_self hcap hlevels]
    have hnode : node.part.kind = .tag → node.part.Closed ∧ Tag.read node.raw ≠ .silent :=
      fun hkind => ⟨hpart.closed hkind, hpart.self.2 hkind⟩
    rcases exists_inside_of_visits hnode hy hsymbol with ⟨clause, hkind, hread, rfl⟩ | ⟨x, hx, hxy⟩
    · refine shows_of_resolve hlaws hgo hpart hfresh hkind hread (fun n t hdepth ht => ?_) hs
      cases hcapped : c.settings.maxDepth.filter (· < n.depth) with
      | some cap' =>
        obtain rfl : cap = cap' := by simpa [hcap] using (Option.filter_eq_some_iff.1 hcapped).1
        rw [resolve_of_capped hcapped]
        exact fun _ => List.mem_append_right _ List.mem_cons_self
      | none =>
        -- above the cap the reference is met again, one level down
        have hparts : ∀ rule ∈ definition.rules,
            ∀ x ∈ Node.ofSections (n.depth + 1) (scan rule).sections,
              (Regime.eloquent d c.settings.separator).part x.part := fun rule hrule x hx =>
          hlaws.part_of_mem_ofSections (d.throughout_rule hvisited h.find hrule) hx
        refine h.shows_resolve hcapped ht
          (fun rule hrule x hx u hu => (hgo x (hparts rule hrule x hx) u u hu).states) ?_
        intro rule hrule x hx y hxy hsymbol u hu
        have hselectable : Selectable c node x := ⟨hkind, hdepth ▸ hcapped, rule, hdepth ▸ hx⟩
        exact ih x (.inr hselectable) (hparts rule hrule x hx) hselectable.fresh.expanded y hxy
          hsymbol u hu
    · exact shows_of_inside hlaws hgo hpart hfresh hx
        (fun t ht => ih x (.inl hx) (hpart.inside hx) hx.fresh.expanded y hxy hsymbol t ht) hs

end Expansion

end NoExit

namespace Grammar

variable [Scalar α] {d : Document α} {origin symbol : Text} {separator : Char}

/-- **A missing exit is no false alarm.**  In a document without pushes, in which every tag has a
clause, let a check find that a symbol has no exit, and let one of its weights be positive if it has
weights. Then under any cap, with any modifiers and source, the expansion of each of its rules halts
at an ambiguous tag or exceeds the cap for the symbol. -/
theorem expand_of_noExit (hvalid : d.validate = .ok ())
    (hpushes : (Lint.survey d separator).pushes = [])
    (hclauses : ∀ x, d.Visits separator x → x.kind = .tag → Tag.read x.raw ≠ .silent)
    (hnoExit : .noExit symbol ∈ (lint d origin separator).errors) {definition : Definition α}
    (hfind : d.find? symbol = some definition)
    (hweights : ∀ weights, definition.weights? = some weights →
      ∃ w ∈ weights, Scalar.lt Scalar.zero w = true)
    {rule : Text} (hrule : rule ∈ definition.rules) (modifiers : Registry) (source : Source α)
    {settings : Settings} (hseparator : settings.separator = separator) {cap : Nat}
    (hcap : settings.maxDepth = some cap) (keepEscapes : Bool) :
    ∃ g, ofDocument d modifiers [] source settings = .ok g ∧
      ((∃ tag, (g.expand rule keepEscapes).result = .error (.ambiguousTag tag)) ∨
        ∃ node, (g.expand rule keepEscapes).result = .ok node ∧
          .depthExceeded symbol cap ∈ node.problems) := by
  subst hseparator
  let g : Grammar α := { symbols := .ofDocument d, modifiers, fallbacks := [], source, settings }
  refine ⟨g, ofDocument_of_valid hvalid modifiers [] source settings, ?_⟩
  have hvisited : ∀ x, d.Visits settings.separator x → x.own.pushes = [] ∧ x.HasClause :=
    fun x hx => ⟨Lint.pushes_own_of_survey hpushes hx, hclauses x hx⟩
  have hrecurs : Expansion.Recurs d settings.separator symbol definition := by
    obtain ⟨definition', he, hrules, hback⟩ := Lint.exists_entry_of_noExit hnoExit
    have hfind' := Named.find?_eq_some.2 he
    obtain rfl : definition = definition' := Option.some.inj (hfind.symm.trans hfind')
    exact ⟨hfind, Document.validate_eq_ok.1 hvalid _ he, ⟨hrules, hweights⟩, hback⟩
  obtain ⟨y, hy, hsymbol⟩ := hrecurs.back rule hrule
  have hlevels : cap < g.settings.levels := cap_lt_levels hcap
  have hshows := hrecurs.shows (c := g.context) hcap hlevels rfl hvisited
    (Node.root rule) (d.throughout_rule hvisited hfind hrule) rfl y hy hsymbol g.state
    ⟨rfl, rfl, rfl, rfl⟩
  have hexhausted := halt_expandNode_ne_exhausted (g := g) hcap (.root rule)
  cases hhalt : (g.expandNode (.root rule)).halt with
  | some halt =>
    cases halt with
    | exhausted => exact absurd hhalt hexhausted
    | ambiguousTag tag => exact .inl ⟨tag, by simp only [Expanded.result, halt_expand, hhalt]⟩
  | none =>
    refine .inr ⟨(g.expand rule keepEscapes).node, ?_, ?_⟩
    · simp only [Expanded.result, halt_expand, hhalt]
    · rw [problems_expand]
      exact hshows hhalt

/-- The references back are in a rule that is evaluated and in an action before a tag. -/
theorem expand_of_noExit_hidden :
    let d := documentOf [("a", ["[y#a#]x", "#[#a.m#]b#"]), ("b", ["z"])]
    let rule := "[y#a#]x".toList
    let settings : Settings := { maxDepth := some 4 }
    .noExit ['a'] ∈ (lint d ['a'] ',').errors ∧
      ∃ g, ofDocument d .empty [] (.fixed 0) settings = .ok g ∧
        ((∃ tag, (g.expand rule true).result = .error (.ambiguousTag tag)) ∨
          ∃ node, (g.expand rule true).result = .ok node ∧
            .depthExceeded ['a'] 4 ∈ node.problems) := by
  intro d rule settings
  have hnoExit : .noExit ['a'] ∈ (lint d ['a'] ',').errors := by decide +kernel
  let visited : List Section :=
    [⟨.unparsed, rule⟩, ⟨.action, "y#a#".toList⟩, ⟨.plain, ['x']⟩, ⟨.unparsed, "y#a#".toList⟩,
      ⟨.plain, ['y']⟩, ⟨.tag, ['a']⟩, ⟨.unparsed, "#[#a.m#]b#".toList⟩, ⟨.tag, "[#a.m#]b".toList⟩,
      ⟨.action, "#a.m#".toList⟩, ⟨.unparsed, "#a.m#".toList⟩, ⟨.tag, "a.m".toList⟩,
      ⟨.unparsed, ['z']⟩, ⟨.plain, ['z']⟩]
  have hvisited : ∀ x, d.Visits ',' x → x ∈ visited :=
    Document.mem_of_visits (by decide +kernel) (by decide +kernel)
  have hclauses : ∀ x ∈ visited, x.kind = .tag → Tag.read x.raw ≠ .silent := by decide +kernel
  have hfind : d.find? ['a'] = some (.many [rule, "#[#a.m#]b#".toList]) := rfl
  exact ⟨hnoExit, expand_of_noExit rfl (by decide +kernel)
    (fun x hx => hclauses x (hvisited x hx)) hnoExit hfind nofun List.mem_cons_self .empty
    (.fixed 0) rfl rfl true⟩

end Grammar

end TextGrammar
