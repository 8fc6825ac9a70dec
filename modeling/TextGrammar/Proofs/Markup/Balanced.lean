import TextGrammar.Proofs.Markup.Closed

/-!
# Texts that may stand in a tag or an action

What a text does to the place in a rule depends on the place, but not by much: inside brackets a `#`
is text, and inside a tag brackets only count. So what is asked of the text of an action is that its
brackets are balanced, and this is all (`Section.closed_action_iff`).

A text without markup does not move the place, wherever it stands.
-/

namespace TextGrammar

/-! ### Texts without markup -/

/-- No character of the text is markup. -/
def Text.Ordinary (t : Text) : Prop := ∀ c ∈ t, c ∉ ['#', '[', ']', '\\']

instance (t : Text) : Decidable t.Ordinary := List.decidableBAll _ t

/-- The text has no delimiter in it and does not move the place, wherever it stands. -/
def Text.Neutral (t : Text) : Prop :=
  ∀ n : Nesting, n.escaped = false → n.Undelimited t ∧ n.after t = n

namespace Text

variable {a b t : Text}

theorem neutral_nil : Neutral [] := fun _ _ => ⟨trivial, rfl⟩

theorem Neutral.append (ha : a.Neutral) (hb : b.Neutral) : Neutral (a ++ b) := by
  intro n hn
  obtain ⟨hund, hafter⟩ := ha n hn
  obtain ⟨hund', hafter'⟩ := hb n hn
  rw [Nesting.undelimited_append, Nesting.after_append, hafter]
  exact ⟨⟨hund, hund'⟩, hafter'⟩

theorem neutral_escaped (c : Char) : Neutral [Escape.mark, c] := by
  intro n hn
  simp [Nesting.Undelimited, Nesting.mark, Nesting.advance, Escape.mark, hn]
  rw [← hn]

theorem Ordinary.neutral (ht : t.Ordinary) : t.Neutral := by
  intro n hn
  induction t with
  | nil => exact ⟨trivial, rfl⟩
  | cons c t ih =>
    obtain ⟨hc, ht⟩ := List.forall_mem_cons.1 ht
    obtain ⟨hund, hafter⟩ := ih ht
    simp only [List.mem_cons, List.not_mem_nil, or_false, not_or] at hc
    obtain ⟨hhash, hopen, hclose, hescape⟩ := hc
    have hmark : n.mark c = .text := by simp [Nesting.mark, hn, hhash, hopen, hclose]
    have hadvance : n.advance c = n := by
      simp [Nesting.advance, hn, hhash, hopen, hclose, hescape]
    exact ⟨⟨hmark, hadvance.symm ▸ hund⟩, by rw [Nesting.after_cons, hadvance, hafter]⟩

theorem neutral_singleton {c : Char} (hc : c ∉ ['#', '[', ']', '\\']) : Neutral [c] :=
  Ordinary.neutral (List.forall_mem_singleton.2 hc)

theorem neutral_join {sep : Text} (hsep : sep.Neutral) {parts : List Text}
    (hparts : ∀ part ∈ parts, part.Neutral) : (join sep parts).Neutral := by
  induction parts with
  | nil => exact neutral_nil
  | cons part parts ih =>
    obtain ⟨hpart, hparts⟩ := List.forall_mem_cons.1 hparts
    cases parts with
    | nil => exact hpart
    | cons next parts => exact (hpart.append hsep).append (ih hparts)

end Text

theorem Text.Neutral.closed {t : Text} (ht : t.Neutral) (kind : SectionKind) :
    Section.Closed ⟨kind, t⟩ := by
  have hescaped : kind.place.escaped = false := by cases kind <;> rfl
  obtain ⟨hund, hafter⟩ := ht kind.place hescaped
  exact ⟨hund, hafter⟩

theorem scan_of_neutral {t : Text} (ht : t.Neutral) : scan t = ⟨Section.ofPlain t, []⟩ := by
  obtain ⟨hund, hafter⟩ := ht {} rfl
  rw [scan_of_undelimited hund, hafter]
  rfl

/-! ### Brackets -/

namespace Nesting

variable {n m : Nesting} {t : Text}

instance (t : Text) : Decidable (Balanced t) :=
  decidable_of_iff
    ((∀ k ≤ t.length, 0 ≤ (after {} (t.take k)).depth) ∧
      (after {} t).depth = 0 ∧ (after {} t).escaped = false) <| by
    refine and_congr_left fun hend => ⟨fun h k => ?_, fun h k _ => h k⟩
    rcases Nat.le_total k t.length with hk | hk
    · exact h k hk
    · rw [List.take_of_length_le hk]
      exact Int.le_of_eq hend.1.symm

/-- One bracket down a character does nothing but to the brackets and to escape marks, as long as it
does not close more than is open. -/
theorem advance_of_nested {c : Char} (hdepth : n.depth = m.depth + 1)
    (hescaped : n.escaped = m.escaped) (hm : 0 ≤ m.depth) (hc : 0 ≤ (m.advance c).depth) :
    n.mark c = .text ∧
      n.advance c =
        { n with depth := (m.advance c).depth + 1, escaped := (m.advance c).escaped } := by
  obtain ⟨depth, inTag, escaped⟩ := n
  obtain rfl : depth = m.depth + 1 := hdepth
  obtain rfl : escaped = m.escaped := hescaped
  have hnested : m.depth + 1 ≠ 0 := by omega
  cases hesc : m.escaped with
  | true => simp [advance, mark, hesc]
  | false =>
    by_cases hescape : c = '\\'
    · simp [advance, mark, hesc, hescape]
    by_cases hopen : c = '['
    · simp [advance, mark, hesc, hopen, hnested]
    by_cases hclose : c = ']'
    · -- the bracket that it closes is not the one that everything is in
      have hinner : m.depth + 1 ≠ 1 := by
        have hless : (m.advance c).depth = m.depth - 1 := by simp [advance, hesc, hclose]
        omega
      simp [advance, mark, hesc, hclose, hinner]
    · have hn : advance ⟨m.depth + 1, inTag, false⟩ c = ⟨m.depth + 1, inTag, false⟩ := by
        simp [advance, hescape, hopen, hclose, hnested]
      have hsame : (m.advance c).depth = m.depth ∧ (m.advance c).escaped = false := by
        simp only [advance, hesc, hescape, hopen, hclose, if_false, Bool.false_eq_true]
        split
        · exact ⟨rfl, rfl⟩
        · exact ⟨rfl, hesc⟩
      simp [mark, hopen, hclose, hnested, hn, hsame]

theorem undelimited_of_nonneg (hdepth : n.depth = m.depth + 1) (hescaped : n.escaped = m.escaped)
    (h : ∀ k, 0 ≤ (m.after (t.take k)).depth) :
    n.Undelimited t ∧
      n.after t = { n with depth := (m.after t).depth + 1, escaped := (m.after t).escaped } := by
  induction t generalizing n m with
  | nil =>
    refine ⟨trivial, ?_⟩
    rw [after_nil, after_nil, ← hdepth, ← hescaped]
  | cons c t ih =>
    have hc : 0 ≤ (m.advance c).depth := by simpa using h 1
    obtain ⟨hmark, hadvance⟩ := advance_of_nested hdepth hescaped (h 0) hc
    obtain ⟨hund, hafter⟩ := ih (n := n.advance c) (m := m.advance c) (by rw [hadvance])
      (by rw [hadvance]) fun k => by simpa using h (k + 1)
    refine ⟨⟨hmark, hund⟩, ?_⟩
    rw [after_cons, after_cons, hafter, hadvance]

theorem depth_advance (n : Nesting) (c : Char) :
    (n.advance c).depth =
      if n.escaped then n.depth
      else if c = '[' then n.depth + 1 else if c = ']' then n.depth - 1 else n.depth := by
  unfold advance
  by_cases hn : n.escaped = true
  · simp only [hn, if_true]
  by_cases hescape : c = '\\'
  · simp [hn, hescape]
  simp only [hn, hescape, if_false]
  split_ifs <;> rfl

/-- How many brackets are open and whether a mark is depends on nothing but brackets and marks. -/
theorem advance_of_inside (hdepth : n.depth = m.depth + 1) (hescaped : n.escaped = m.escaped)
    (c : Char) :
    (n.advance c).depth = (m.advance c).depth + 1 ∧
      (n.advance c).escaped = (m.advance c).escaped := by
  refine ⟨?_, ?_⟩
  · rw [depth_advance, depth_advance, hescaped]
    split_ifs <;> omega
  · rw [escaped_advance, escaped_advance, hescaped]

theorem depth_pos_of_opening (hn : n.opening = ['[']) : 0 < n.depth := by
  unfold opening at hn
  by_cases hin : n.inTag = true
  · simp [hin] at hn
  · by_cases hpos : 0 < n.depth
    · exact hpos
    · simp [hin, hpos] at hn

theorem nonneg_of_undelimited (hdepth : n.depth = m.depth + 1) (hescaped : n.escaped = m.escaped)
    (hn : n.opening = ['[']) (h : n.Undelimited t) (k : Nat) : 0 ≤ (m.after (t.take k)).depth := by
  have hm : 0 ≤ m.depth := by
    have hpos := depth_pos_of_opening hn
    omega
  induction t generalizing n m k with
  | nil =>
    rw [List.take_nil]
    exact hm
  | cons c t ih =>
    cases k with
    | zero => exact hm
    | succ k =>
      obtain ⟨hdepth', hescaped'⟩ := advance_of_inside hdepth hescaped c
      have hopening : (n.advance c).opening = ['['] := by rw [opening_advance h.1, hn]
      have hpos := depth_pos_of_opening hopening
      exact ih hdepth' hescaped' hopening h.2 k (by omega)

/-- The place inside of a tag. -/
def within (n : Nesting) : Nesting := { n with inTag := true }

/-- What is text where no tag is open is text in a tag as well. -/
theorem advance_within {c : Char} (hin : n.inTag = false) (h : n.mark c = .text) :
    n.within.mark c = .text ∧ n.within.advance c = (n.advance c).within ∧
      (n.advance c).inTag = false := by
  obtain ⟨depth, inTag, escaped⟩ := n
  obtain rfl : inTag = false := hin
  unfold mark at h
  unfold within advance mark
  split_ifs at h ⊢ <;> simp_all

theorem Undelimited.within (h : n.Undelimited t) (hin : n.inTag = false) :
    n.within.Undelimited t ∧ n.within.after t = (n.after t).within := by
  induction t generalizing n with
  | nil => exact ⟨trivial, rfl⟩
  | cons c t ih =>
    obtain ⟨hmark, hadvance, hin'⟩ := advance_within hin h.1
    obtain ⟨hund, hafter⟩ := ih h.2 hin'
    rw [Undelimited, after_cons, after_cons, hadvance]
    exact ⟨⟨hmark, hund⟩, hafter⟩

end Nesting

/-- **What is asked of the text of an action** is that its brackets are balanced. -/
theorem Section.closed_action_iff {raw : Text} :
    Section.Closed ⟨.action, raw⟩ ↔ Nesting.Balanced raw := by
  let place : Nesting := { depth := 1 }
  constructor
  · rintro ⟨hund, hafter⟩
    have hnonneg := Nesting.nonneg_of_undelimited (n := place) (m := {}) rfl rfl rfl hund
    obtain ⟨-, hplace⟩ := Nesting.undelimited_of_nonneg (n := place) (m := {}) rfl rfl hnonneg
    have hback : place.after raw = place := hafter
    rw [hback] at hplace
    have hdepth := congrArg Nesting.depth hplace
    have hescaped := congrArg Nesting.escaped hplace
    simp only [place] at hdepth hescaped
    exact ⟨hnonneg, by omega, hescaped.symm⟩
  · rintro ⟨hnonneg, hdepth, hescaped⟩
    obtain ⟨hund, hafter⟩ := Nesting.undelimited_of_nonneg (n := place) (m := {}) rfl rfl hnonneg
    refine ⟨hund, hafter.trans ?_⟩
    rw [hdepth, hescaped]
    rfl

theorem Text.Neutral.balanced {t : Text} (ht : t.Neutral) : Nesting.Balanced t :=
  Section.closed_action_iff.1 (ht.closed .action)

/-! ### In a tag -/

namespace Section

theorem Closed.within {x : Section} (h : x.Closed) (hkind : x.kind = .plain ∨ x.kind = .action) :
    Nesting.Undelimited { inTag := true } x.source ∧
      Nesting.after { inTag := true } x.source = { inTag := true } := by
  obtain ⟨kind, raw⟩ := x
  obtain rfl | rfl : kind = .plain ∨ kind = .action := hkind
  · obtain ⟨hund, hafter⟩ := h.undelimited.within rfl
    have hraw : Nesting.after {} raw = {} := h.after_eq
    exact ⟨hund, hafter.trans (congrArg Nesting.within hraw)⟩
  · obtain ⟨hund, hafter⟩ := h.undelimited.within rfl
    have hback : Nesting.after { depth := 1, inTag := true } raw =
        { depth := 1, inTag := true } := by
      have hraw : Nesting.after { depth := 1 } raw = { depth := 1 } := h.after_eq
      exact hafter.trans (congrArg Nesting.within hraw)
    have hopen : Nesting.advance { inTag := true } '[' = { depth := 1, inTag := true } := rfl
    simp only [source, List.cons_append, Nesting.Undelimited, Nesting.after_cons, hopen,
      Nesting.undelimited_append, Nesting.after_append, hback]
    exact ⟨⟨rfl, hund, rfl, trivial⟩, rfl⟩

/-- **Any closed plain text and actions make the text of a tag**, one after the other. -/
theorem closed_tag {xs : List Section} (hclosed : ∀ x ∈ xs, x.Closed)
    (hkind : ∀ x ∈ xs, x.kind = .plain ∨ x.kind = .action) :
    Closed ⟨.tag, xs.flatMap source⟩ := by
  have hsources : Nesting.Undelimited { inTag := true } (xs.flatMap source) ∧
      Nesting.after { inTag := true } (xs.flatMap source) = { inTag := true } := by
    induction xs with
    | nil => exact ⟨trivial, rfl⟩
    | cons x xs ih =>
      obtain ⟨hx, hkind⟩ := List.forall_mem_cons.1 hkind
      obtain ⟨hxClosed, hclosed⟩ := List.forall_mem_cons.1 hclosed
      obtain ⟨hund, hafter⟩ := hxClosed.within hx
      obtain ⟨hundRest, hafterRest⟩ := ih hclosed hkind
      rw [List.flatMap_cons, Nesting.undelimited_append, Nesting.after_append, hafter]
      exact ⟨⟨hund, hundRest⟩, hafterRest⟩
  exact ⟨hsources.1, hsources.2⟩

end Section

end TextGrammar
