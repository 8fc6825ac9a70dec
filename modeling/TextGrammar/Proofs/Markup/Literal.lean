import TextGrammar.Proofs.Markup.Balanced

/-!
# Texts that stand for themselves

In a rule a text stands for itself once its markup is escaped, and in the rules of a push once their
separator is escaped as well (`Text.literal`). Such a text is plain text, wherever it stands
(`Text.neutral_literal`); alternatives that are written so are told apart again
(`Alternatives.split_join_literal`); and without its escape marks it is what it was
(`Text.strip_literal`).
-/

namespace TextGrammar

/-- The text with its markup and every separator escaped. -/
def Text.literal (separator : Char) (t : Text) : Text :=
  Escape.quote (fun c => c ∈ ['#', '[', ']', '\\', separator]) t

/-- The rule that pushes texts over a symbol, as they are, and refers to it. -/
def Text.oneOf (separator : Char) (symbol : Text) (ts : List Text) : Text :=
  "#[".toList ++ symbol ++ ':' :: Text.join [separator] (ts.map (Text.literal separator)) ++
    ']' :: symbol ++ ['#']

variable {separator c : Char} {t : Text}

namespace Text

theorem literal_cons_of_mem (h : c ∈ ['#', '[', ']', '\\', separator]) :
    literal separator (c :: t) = Escape.mark :: c :: literal separator t := by
  simp only [literal, Escape.quote, List.flatMap_cons, h, decide_true, if_true, List.cons_append,
    List.nil_append]

theorem literal_cons_of_not_mem (h : c ∉ ['#', '[', ']', '\\', separator]) :
    literal separator (c :: t) = c :: literal separator t := by
  simp only [literal, Escape.quote, List.flatMap_cons, h, decide_false, Bool.false_eq_true,
    if_false, List.cons_append, List.nil_append]

theorem literal_eq_nil : literal separator t = [] ↔ t = [] := by
  cases t with
  | nil => exact iff_of_true rfl rfl
  | cons c t =>
    by_cases hc : c ∈ ['#', '[', ']', '\\', separator]
    · simp [literal_cons_of_mem hc]
    · simp [literal_cons_of_not_mem hc]

theorem strip_literal (separator : Char) (t : Text) :
    Escape.strip (literal separator t) = t :=
  Escape.strip_quote _ (by simp [Escape.mark]) t

theorem neutral_literal (separator : Char) (t : Text) : (literal separator t).Neutral := by
  induction t with
  | nil => exact neutral_nil
  | cons c t ih =>
    by_cases hc : c ∈ ['#', '[', ']', '\\', separator]
    · rw [literal_cons_of_mem hc]
      exact (neutral_escaped c).append ih
    · rw [literal_cons_of_not_mem hc]
      exact (neutral_singleton fun h => hc (List.mem_append_left [separator] h)).append ih

end Text

namespace Alternatives

variable {n : Nesting} {rest first : Text} {more : List Text}

theorem splitFrom_cons_of_not_splitsAt (h : n.splitsAt separator c = false) :
    splitFrom separator n (c :: t) = Text.consPiece c (splitFrom separator (n.advance c) t) := by
  simp only [splitFrom, h, Bool.false_eq_true, if_false]

/-- A literal text is not cut, and belongs to the first of the alternatives behind it. -/
theorem splitFrom_literal_append (hn : n.escaped = false)
    (hrest : splitFrom separator n rest = first :: more) (t : Text) :
    splitFrom separator n (Text.literal separator t ++ rest) =
      (Text.literal separator t ++ first) :: more := by
  induction t with
  | nil => exact hrest
  | cons c t ih =>
    by_cases hc : c ∈ ['#', '[', ']', '\\', separator]
    · -- neither the mark nor what it escapes is a separator
      have hmark : n.splitsAt separator Escape.mark = false := by
        simp [Nesting.splitsAt, Escape.mark]
      have hescaped : (n.advance Escape.mark).splitsAt separator c = false := by
        simp [Nesting.splitsAt, Nesting.isTop, Nesting.advance, Escape.mark, hn]
      have hback : (n.advance Escape.mark).advance c = n := (Text.neutral_escaped c n hn).2
      rw [Text.literal_cons_of_mem hc, List.cons_append, List.cons_append,
        splitFrom_cons_of_not_splitsAt hmark, splitFrom_cons_of_not_splitsAt hescaped, hback, ih]
      rfl
    · have hseparator : c ≠ separator := fun h => hc (by simp [h])
      have hsplits : n.splitsAt separator c = false := by simp [Nesting.splitsAt, hseparator]
      have hmarkup : c ∉ ['#', '[', ']', '\\'] := fun h => hc (List.mem_append_left [separator] h)
      have hback : n.advance c = n := (Text.neutral_singleton hmarkup n hn).2
      rw [Text.literal_cons_of_not_mem hc, List.cons_append,
        splitFrom_cons_of_not_splitsAt hsplits, hback, ih]
      rfl

/-- **Literal alternatives are told apart again.** -/
theorem split_join_literal (hseparator : separator ∉ ['#', '[', ']', '\\']) {ts : List Text}
    (hts : ts ≠ []) :
    split separator (Text.join [separator] (ts.map (Text.literal separator))) =
      ts.map (Text.literal separator) := by
  induction ts with
  | nil => exact absurd rfl hts
  | cons t ts ih =>
    cases ts with
    | nil =>
      have hlast : splitFrom separator {} (Text.literal separator t ++ []) =
          [Text.literal separator t ++ []] := splitFrom_literal_append rfl rfl t
      rwa [List.append_nil] at hlast
    | cons next ts =>
      let behind := Text.join [separator] ((next :: ts).map (Text.literal separator))
      have hcut : splitFrom separator {} (separator :: behind) =
          [] :: (next :: ts).map (Text.literal separator) := by
        have hsplits : Nesting.splitsAt {} separator separator = true := by
          simp only [List.mem_cons, List.not_mem_nil, or_false, not_or] at hseparator
          simp [Nesting.splitsAt, Nesting.isTop, hseparator]
        have hback : Nesting.advance {} separator = {} :=
          (Text.neutral_singleton hseparator {} rfl).2
        rw [splitFrom, hsplits, if_pos rfl, hback]
        exact congrArg ([] :: ·) (ih (List.cons_ne_nil _ _))
      have hjoin : Text.join [separator] ((t :: next :: ts).map (Text.literal separator)) =
          Text.literal separator t ++ separator :: behind := by
        simp only [List.map_cons, Text.join, behind, List.append_assoc, List.singleton_append]
      rw [split, hjoin, splitFrom_literal_append rfl hcut, List.append_nil]
      rfl

end Alternatives

end TextGrammar
