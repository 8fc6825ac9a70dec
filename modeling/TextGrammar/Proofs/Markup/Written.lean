import TextGrammar.Modifier
import TextGrammar.Proofs.Markup.Scoped

/-!
# Tags as they are written

A symbol, its modifiers with their parameters, and the actions that run before them are written as
`#[target:rules]symbol.name.name(param,param)#`. Four readers take this apart one after the other:
the scan finds the tag, `Tag.read` the clause and the actions in it, `Action.read` the parts of an
action and `ModifierSpec.read` those of a modifier.

What is asked of the parts is that none of them holds a mark at which its own reader or one before
it would stop; `Legible` says so of a modifier and of an action. In rules and in texts to evaluate
brackets need only be balanced. Then the tag is read back as it was written
(`Tag.Written.read_back`).
-/

namespace TextGrammar

/-! ### Marks -/

namespace Text

/-- None of the marks stands in the text. -/
def Free (marks : List Char) (t : Text) : Prop := ∀ c ∈ t, c ∉ marks

instance (marks : List Char) (t : Text) : Decidable (t.Free marks) := List.decidableBAll _ t

variable {marks fewer : List Char} {c : Char} {t sep : Text} {parts : List Text}

theorem Free.not_mem (h : t.Free marks) (hc : c ∈ marks) : c ∉ t := fun hmem => h c hmem hc

theorem Free.mono (h : t.Free marks) (hfewer : fewer ⊆ marks) : t.Free fewer :=
  fun c hc hmark => h c hc (hfewer hmark)

theorem Free.join (hsep : sep.Free marks) (h : ∀ part ∈ parts, part.Free marks) :
    (Text.join sep parts).Free marks :=
  forall_mem_join hsep h

end Text

/-! ### Modifiers -/

namespace ModifierSpec

/-- The reference as it is written: the name and, if there are any, the parameters in
parentheses. -/
def text (spec : ModifierSpec) : Text :=
  if spec.params = [] then spec.name
  else spec.name ++ '(' :: (Text.join [','] spec.params ++ [')'])

/-- The reference is read back: neither the name nor a parameter has a mark in it at which a reader
would stop, and the parameters are not written as `()`. -/
structure Legible (spec : ModifierSpec) : Prop where
  name_ne : spec.name ≠ []
  name_free : spec.name.Free ['#', '[', ']', '\\', '.', '(']
  params_ne : spec.params ≠ [[]]
  params_free : ∀ param ∈ spec.params, param.Free ['#', '[', ']', '\\', '.', ',', ')']

instance (spec : ModifierSpec) : Decidable spec.Legible :=
  decidable_of_iff
    (spec.name ≠ [] ∧ spec.name.Free ['#', '[', ']', '\\', '.', '('] ∧ spec.params ≠ [[]] ∧
      ∀ param ∈ spec.params, param.Free ['#', '[', ']', '\\', '.', ',', ')'])
    ⟨fun ⟨hne, hname, hparams, hfree⟩ => ⟨hne, hname, hparams, hfree⟩,
      fun ⟨hne, hname, hparams, hfree⟩ => ⟨hne, hname, hparams, hfree⟩⟩

variable {spec : ModifierSpec}

theorem Legible.parenthesis_not_mem (h : spec.Legible) : '(' ∉ spec.name :=
  h.name_free.not_mem (by decide)

theorem Legible.pieces_params (h : spec.Legible) (hne : spec.params ≠ []) :
    Text.pieces ',' (Text.join [','] spec.params) = spec.params :=
  Text.pieces_join hne fun param hparam => (h.params_free param hparam).not_mem (by decide)

theorem Legible.join_params_free (h : spec.Legible) :
    (Text.join [','] spec.params).Free ['#', '[', ']', '\\', '.', ')'] :=
  .join (by decide) fun param hparam => (h.params_free param hparam).mono (by simp)

/-- **A modifier is read back as it was written.** -/
theorem Legible.read_text (h : spec.Legible) : read spec.text = spec := by
  obtain ⟨name, params⟩ := spec
  by_cases hparams : params = []
  · subst hparams
    simp only [text, if_true, read, Text.cut?_of_not_mem h.parenthesis_not_mem, bare]
  · have hpieces := h.pieces_params hparams
    have hclose : ')' ∉ Text.join [','] params := h.join_params_free.not_mem (by decide)
    have hinner : Text.join [','] params ≠ [] := by
      intro hnil
      rw [hnil] at hpieces
      exact h.params_ne hpieces.symm
    have hname : name ≠ [] := h.name_ne
    obtain ⟨first, name, rfl⟩ := List.exists_cons_of_ne_nil hname
    obtain ⟨c, inner, hcons⟩ := List.exists_cons_of_ne_nil hinner
    rw [hcons] at hpieces hclose
    simp only [text, if_neg hparams, read, Text.cut?_append_cons h.parenthesis_not_mem, hcons,
      Text.cut?_append_cons hclose, hpieces]

theorem Legible.text_free (h : spec.Legible) : spec.text.Free ['#', '[', ']', '\\', '.'] := by
  have hname : spec.name.Free ['#', '[', ']', '\\', '.'] := h.name_free.mono (by simp)
  have hjoin : (Text.join [','] spec.params).Free ['#', '[', ']', '\\', '.'] :=
    h.join_params_free.mono (by simp)
  unfold text
  split_ifs
  · exact hname
  · refine List.forall_mem_append.2 ⟨hname, List.forall_mem_cons.2 ⟨by decide, ?_⟩⟩
    exact List.forall_mem_append.2 ⟨hjoin, List.forall_mem_singleton.2 (by decide)⟩

end ModifierSpec

/-! ### Actions -/

namespace Action

/-- The action as it is written, without its brackets. -/
def text : Action → Text
  | push target rules => target ++ ':' :: rules
  | pop target => target ++ ':' :: popWord
  | evaluate rule => rule

/-- The action is read back: the first colon is the one behind the target, and brackets are
balanced. -/
def Legible : Action → Prop
  | push target rules =>
    (target.Ordinary ∧ ':' ∉ target) ∧ rules ≠ popWord ∧ Nesting.Balanced rules
  | pop target => target.Ordinary ∧ ':' ∉ target
  | evaluate rule => rule ≠ [] ∧ ':' ∉ rule ∧ Nesting.Balanced rule

instance : ∀ action : Action, Decidable action.Legible
  | push _ _ | pop _ | evaluate _ => inferInstanceAs (Decidable (_ ∧ _))

variable {action : Action}

/-- **An action is read back as it was written.** -/
theorem Legible.read_text (h : action.Legible) : read action.text = action := by
  cases action with
  | push target rules =>
    obtain ⟨⟨-, hcolon⟩, hrules, -⟩ := h
    simp only [text, read, Text.cut?_append_cons hcolon, if_neg hrules]
  | pop target =>
    obtain ⟨-, hcolon⟩ := h
    simp only [text, read, Text.cut?_append_cons hcolon, if_true]
  | evaluate rule =>
    obtain ⟨-, hcolon, -⟩ := h
    simp only [text, read, Text.cut?_of_not_mem hcolon]

theorem Legible.text_ne (h : action.Legible) : action.text ≠ [] := by
  cases action with
  | push target rules | pop target => simp [text]
  | evaluate rule => exact h.1

/-- In brackets it makes an action and nothing else. -/
theorem Legible.closed (h : action.Legible) : Section.Closed ⟨.action, action.text⟩ := by
  cases action with
  | push target rules => exact Push.closed_of_balanced h.1.1 h.2.2
  | pop target => exact Push.closed_of_balanced h.1 (Text.Ordinary.neutral (by decide)).balanced
  | evaluate rule => exact Section.closed_action_iff.2 h.2.2

end Action

/-! ### Tags -/

namespace Tag

/-- A tag that is to be written: a symbol and its modifiers, and what runs before them. -/
structure Written where
  actions : List Action
  symbol : Text
  modifiers : List ModifierSpec
  actions_legible : ∀ action ∈ actions, action.Legible
  symbol_ne : symbol ≠ []
  symbol_free : symbol.Free ['#', '[', ']', '\\', '.']
  modifiers_legible : ∀ spec ∈ modifiers, spec.Legible

namespace Written

/-- The actions as sections. -/
def sections (w : Written) : List Section := w.actions.map fun action => ⟨.action, action.text⟩

/-- The symbol and its modifiers, with points between them. -/
def clause (w : Written) : Text := Text.join ['.'] (w.symbol :: w.modifiers.map ModifierSpec.text)

/-- The text between the delimiters of the tag. -/
def text (w : Written) : Text := w.sections.flatMap Section.source ++ w.clause

/-- The tag as it is written. -/
def source (w : Written) : Text := Section.source ⟨.tag, w.text⟩

variable (w : Written)

theorem forall_mem_sections {P : Section → Prop}
    (h : ∀ action : Action, action.Legible → P ⟨.action, action.text⟩) : ∀ x ∈ w.sections, P x :=
  List.forall_mem_map.2 fun action haction => h action (w.actions_legible action haction)

theorem clause_ordinary : w.clause.Ordinary := by
  have hmodifiers : ∀ part ∈ w.modifiers.map ModifierSpec.text,
      part.Free ['#', '[', ']', '\\'] :=
    List.forall_mem_map.2 fun spec hspec =>
      (w.modifiers_legible spec hspec).text_free.mono (by simp)
  have hsymbol : w.symbol.Free ['#', '[', ']', '\\'] := w.symbol_free.mono (by simp)
  exact Text.Free.join (by decide) (List.forall_mem_cons.2 ⟨hsymbol, hmodifiers⟩)

/-- The points tell the symbol and the modifiers apart. -/
theorem pieces_clause :
    Text.pieces '.' w.clause = w.symbol :: w.modifiers.map ModifierSpec.text := by
  refine Text.pieces_join (List.cons_ne_nil _ _) (List.forall_mem_cons.2 ⟨?_, ?_⟩)
  · exact w.symbol_free.not_mem (by decide)
  · refine List.forall_mem_map.2 fun spec hspec => ?_
    exact (w.modifiers_legible spec hspec).text_free.not_mem (by decide)

theorem clause_ne : w.clause ≠ [] := by
  intro hnil
  have hpieces := w.pieces_clause
  rw [hnil, Text.pieces_nil] at hpieces
  exact w.symbol_ne (List.cons.inj hpieces).1.symm

theorem map_read_sections : w.sections.map (fun x => Action.read x.raw) = w.actions := by
  have hread : ∀ action ∈ w.actions, Action.read action.text = action :=
    fun action haction => (w.actions_legible action haction).read_text
  rw [sections, List.map_map]
  exact (List.map_congr_left hread).trans (List.map_id _)

theorem map_read_modifiers :
    (w.modifiers.map ModifierSpec.text).map ModifierSpec.read = w.modifiers := by
  have hread : ∀ spec ∈ w.modifiers, ModifierSpec.read spec.text = spec :=
    fun spec hspec => (w.modifiers_legible spec hspec).read_text
  rw [List.map_map]
  exact (List.map_congr_left hread).trans (List.map_id _)

/-- **A tag is read back as it was written.**  The scan finds the tag and nothing else; in it are
the symbol, the modifiers with their parameters, and the actions before them with their targets and
rules, all in order; and nothing is reported. -/
theorem read_back (w : Written) :
    scan w.source = ⟨[⟨.tag, w.text⟩], []⟩ ∧
      ∃ clause : Clause, read w.text = .clause clause ∧ clause.symbol = w.symbol ∧
        clause.modifiers.map ModifierSpec.read = w.modifiers ∧
        (∀ x ∈ clause.preactions, x.kind = .action) ∧
        clause.preactions.map (fun x => Action.read x.raw) = w.actions ∧
        clause.problems = [] := by
  have hkind : ∀ x ∈ w.sections, x.kind = .action := w.forall_mem_sections fun _ _ => rfl
  have hclosed : ∀ x ∈ w.sections, x.Closed := w.forall_mem_sections fun _ h => h.closed
  have hraw : ∀ x ∈ w.sections, x.raw ≠ [] := w.forall_mem_sections fun _ h => h.text_ne
  have hclause := w.clause_ordinary.neutral
  refine ⟨scan_actions hkind hclosed hclause w.clause_ne, _,
    read_actions hkind hclosed hraw hclause w.clause_ne, ?_, ?_, hkind, w.map_read_sections, rfl⟩
  · rw [w.pieces_clause]
    rfl
  · rw [w.pieces_clause]
    exact w.map_read_modifiers

/-- A push with an action and a tag in its rules, an empty push, a pop, a tag that is evaluated,
and a modifier of which one parameter is empty. -/
theorem read_back_nested :
    ∃ w : Written,
      w.source = "#[x:a,[y:#b.c#]][:][y:POP][#z#]hero.replace(é,).s#".toList ∧
        scan w.source = ⟨[⟨.tag, w.text⟩], []⟩ ∧
        ∃ clause : Clause, read w.text = .clause clause ∧ clause.symbol = "hero".toList ∧
          clause.modifiers.map ModifierSpec.read =
            [⟨"replace".toList, ["é".toList, []]⟩, ⟨"s".toList, []⟩] ∧
          clause.preactions.map (fun x => Action.read x.raw) =
            [.push "x".toList "a,[y:#b.c#]".toList, .push [] [], .pop "y".toList,
              .evaluate "#z#".toList] := by
  let w : Written :=
    { actions := [.push "x".toList "a,[y:#b.c#]".toList, .push [] [], .pop "y".toList,
        .evaluate "#z#".toList]
      symbol := "hero".toList
      modifiers := [⟨"replace".toList, ["é".toList, []]⟩, ⟨"s".toList, []⟩]
      actions_legible := by decide +kernel
      symbol_ne := by decide
      symbol_free := by decide
      modifiers_legible := by decide +kernel }
  obtain ⟨hscan, clause, hread, hsymbol, hmodifiers, -, hactions, -⟩ := read_back w
  exact ⟨w, by decide +kernel, hscan, clause, hread, hsymbol, hmodifiers, hactions⟩

end Written

end Tag

end TextGrammar
