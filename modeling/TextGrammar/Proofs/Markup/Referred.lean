import TextGrammar.Proofs.Markup.Literal
import TextGrammar.Proofs.Markup.Written

/-!
# Names in tags

A name may hold any characters, and those that mean something in a tag can be escaped
(`Text.reference`). The tag then ends where it should, and it is one clause (`scan_reference`). But
the clause is taken apart as it is written: an escaped point still separates the symbol from the
modifiers, and escape marks stay in both, because only a finished text is stripped of them
(`Tag.read_literal`).

So the symbol of the clause is the name exactly if nothing in the name has to be escaped
(`Tag.Clause.symbol_ofName`). Otherwise it is longer by an escape mark or ends before a point.
-/

namespace TextGrammar

/-! ### Names with escape marks -/

namespace Text

/-- The tag that refers to a name, with its markup and its points escaped. -/
def reference (name : Text) : Text := Section.source ⟨.tag, literal '.' name⟩

variable {separator : Char} {t name : Text}

theorem literal_append (separator : Char) (a b : Text) :
    literal separator (a ++ b) = literal separator a ++ literal separator b :=
  List.flatMap_append

theorem not_mem_literal {c : Char} (hmark : c ≠ Escape.mark) (h : c ∉ t) :
    c ∉ literal separator t := by
  intro hmem
  obtain ⟨d, hd, hc⟩ := List.mem_flatMap.1 hmem
  split_ifs at hc
  · rcases List.mem_cons.1 hc with rfl | hc
    · exact hmark rfl
    · exact h (List.mem_singleton.1 hc ▸ hd)
  · exact h (List.mem_singleton.1 hc ▸ hd)

theorem length_le_length_literal (separator : Char) (t : Text) :
    t.length ≤ (literal separator t).length := by
  induction t with
  | nil => exact Nat.le_refl 0
  | cons c t ih =>
    by_cases hc : c ∈ ['#', '[', ']', '\\', separator]
    · rw [literal_cons_of_mem hc, List.length_cons, List.length_cons, List.length_cons]
      omega
    · rw [literal_cons_of_not_mem hc, List.length_cons, List.length_cons]
      omega

theorem literal_eq_self : literal separator t = t ↔ t.Free ['#', '[', ']', '\\', separator] := by
  induction t with
  | nil => exact iff_of_true rfl (List.forall_mem_nil _)
  | cons c t ih =>
    have hcons : Free ['#', '[', ']', '\\', separator] (c :: t) ↔
        c ∉ ['#', '[', ']', '\\', separator] ∧ Free ['#', '[', ']', '\\', separator] t :=
      List.forall_mem_cons
    rw [hcons]
    by_cases hc : c ∈ ['#', '[', ']', '\\', separator]
    · refine iff_of_false (fun h => ?_) fun h => h.1 hc
      -- the mark makes the text longer
      have hlength := congrArg List.length h
      have hle := length_le_length_literal separator t
      rw [literal_cons_of_mem hc, List.length_cons, List.length_cons, List.length_cons] at hlength
      omega
    · rw [literal_cons_of_not_mem hc, List.cons.injEq, ih]
      exact ⟨fun h => ⟨hc, h.2⟩, fun h => ⟨rfl, h.2⟩⟩

end Text

/-! ### Clauses of references -/

namespace Tag

/-- What is read from the reference to a name. Of a name with a point only the part before the point
belongs to the symbol, and the mark that escapes the point is its last character. -/
def Clause.ofName (name : Text) : Clause :=
  match name.cut? '.' with
  | none =>
    { symbol := Text.literal '.' name, modifiers := [], preactions := [], problems := [] }
  | some (before, behind) =>
    { symbol := Text.literal '.' before ++ [Escape.mark]
      modifiers := Text.pieces '.' (Text.literal '.' behind)
      preactions := []
      problems := [] }

variable {name before behind : Text}

theorem Clause.ofName_of_not_mem (h : '.' ∉ name) :
    ofName name =
      { symbol := Text.literal '.' name, modifiers := [], preactions := [], problems := [] } := by
  simp only [ofName, Text.cut?_of_not_mem h]

theorem Clause.ofName_append_cons (h : '.' ∉ before) (behind : Text) :
    ofName (before ++ '.' :: behind) =
      { symbol := Text.literal '.' before ++ [Escape.mark]
        modifiers := Text.pieces '.' (Text.literal '.' behind)
        preactions := []
        problems := [] } := by
  simp only [ofName, Text.cut?_append_cons h]

/-- **The reference is read at every point.** -/
theorem read_literal (hne : name ≠ []) :
    read (Text.literal '.' name) = .clause (.ofName name) := by
  have hread : read (Text.literal '.' name) =
      .clause
        { symbol := (Text.pieces '.' (Text.literal '.' name)).headD []
          modifiers := (Text.pieces '.' (Text.literal '.' name)).tail
          preactions := []
          problems := [] } :=
    read_actions (List.forall_mem_nil _) (List.forall_mem_nil _) (List.forall_mem_nil _)
      (Text.neutral_literal '.' name) (Text.literal_eq_nil.not.2 hne)
  rw [hread]
  by_cases hpoint : '.' ∈ name
  · obtain ⟨before, behind, rfl, hbefore⟩ := List.eq_append_cons_of_mem hpoint
    -- the mark of the point stays before it
    have hpieces : Text.pieces '.' (Text.literal '.' (before ++ '.' :: behind)) =
        (Text.literal '.' before ++ [Escape.mark]) ::
          Text.pieces '.' (Text.literal '.' behind) := by
      have hfirst : '.' ∉ Text.literal '.' before ++ [Escape.mark] := by
        rw [List.mem_append, not_or]
        exact ⟨Text.not_mem_literal (by decide) hbefore, by decide⟩
      rw [Text.literal_append, Text.literal_cons_of_mem (by simp), List.append_cons,
        Text.pieces_append_cons hfirst]
    rw [hpieces, Clause.ofName_append_cons hbefore]
    rfl
  · rw [Text.pieces_of_not_mem (Text.not_mem_literal (by decide) hpoint),
      Clause.ofName_of_not_mem hpoint]
    rfl

/-- The symbol of the reference is the name only if nothing in it had to be escaped. -/
theorem Clause.symbol_ofName :
    (ofName name).symbol = name ↔ name.Free ['#', '[', ']', '\\', '.'] := by
  by_cases hpoint : '.' ∈ name
  · obtain ⟨before, behind, rfl, hbefore⟩ := List.eq_append_cons_of_mem hpoint
    rw [ofName_append_cons hbefore]
    refine iff_of_false (fun h => ?_) fun h => h.not_mem (by decide) hpoint
    rw [← h, List.mem_append] at hpoint
    exact hpoint.elim (Text.not_mem_literal (by decide) hbefore) (by decide)
  · rw [ofName_of_not_mem hpoint]
    exact Text.literal_eq_self

theorem Clause.modifiers_ofName (h : name.Free ['#', '[', ']', '\\', '.']) :
    (ofName name).modifiers = [] := by
  rw [ofName_of_not_mem (h.not_mem (by decide))]

/-- A mark at the end of the symbol escapes the first parenthesis behind it, and no more. -/
theorem Clause.neutral_placeholder (name : Text) :
    (Text.placeholder (ofName name).symbol).Neutral := by
  have hparen : Text.Neutral [')', ')'] := Text.Ordinary.neutral (by decide)
  have hopen : ∀ t : Text, t.Neutral → Text.Neutral (['(', '('] ++ t) := fun t ht =>
    (Text.Ordinary.neutral (by decide)).append ht
  by_cases hpoint : '.' ∈ name
  · obtain ⟨before, behind, rfl, hbefore⟩ := List.eq_append_cons_of_mem hpoint
    rw [ofName_append_cons hbefore]
    have hescaped : Text.Neutral [Escape.mark, ')'] := Text.neutral_escaped ')'
    have hlast : Text.Neutral [')'] := Text.neutral_singleton (by decide)
    have hwhole := (hopen _ (Text.neutral_literal '.' before)).append (hescaped.append hlast)
    simpa [Text.placeholder] using hwhole
  · rw [ofName_of_not_mem hpoint]
    exact (hopen _ (Text.neutral_literal '.' name)).append hparen

end Tag

theorem scan_reference {name : Text} (hne : name ≠ []) :
    scan (Text.reference name) = ⟨[⟨.tag, Text.literal '.' name⟩], []⟩ :=
  scan_source_tag ((Text.neutral_literal '.' name).closed .tag) (Text.literal_eq_nil.not.2 hne)

end TextGrammar
