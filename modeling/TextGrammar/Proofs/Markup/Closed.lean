import TextGrammar.Proofs.Markup.Append
import TextGrammar.Proofs.Markup.Parts

/-!
# Sections on their own

Between the delimiters of a section the scan has met no other delimiter. So the text of a tag or an
action, read from the place behind its opening delimiter, is `Undelimited` and leads back to that
place: the section is `Closed`, which says nothing of the rule it was cut out of
(`closed_of_mem_scan`).

From this alone one knows what a second scan does. In the text of a tag there is no other tag, and
nothing is left open at its end (`Section.Closed.after_raw`); so what runs before the clause of a
tag are actions, and the placeholder for its symbol is plain text (`scan_placeholder`). The source
of a closed section leads back to where it starts (`Section.Closed.after_source`).
-/

namespace TextGrammar

/-! ### Text without delimiters -/

namespace Nesting

/-- Read from this place on, the text has no delimiter in it. -/
def Undelimited (n : Nesting) : Text → Prop
  | [] => True
  | c :: t => n.mark c = .text ∧ (n.advance c).Undelimited t

instance decidableUndelimited : ∀ (n : Nesting) (t : Text), Decidable (n.Undelimited t)
  | _, [] => isTrue trivial
  | n, c :: t =>
    have := decidableUndelimited (n.advance c) t
    inferInstanceAs (Decidable (_ ∧ _))

variable {n : Nesting} {a b t : Text} {c : Char}

theorem undelimited_append :
    n.Undelimited (a ++ b) ↔ n.Undelimited a ∧ (n.after a).Undelimited b := by
  induction a generalizing n with
  | nil => simp [Undelimited]
  | cons c a ih => simp only [List.cons_append, Undelimited, ih, after_cons, and_assoc]

theorem opening_advance (h : n.mark c = .text) : (n.advance c).opening = n.opening := by
  have spec := n.mark_spec c
  rwa [h] at spec

theorem Undelimited.opening_after (h : n.Undelimited t) : (n.after t).opening = n.opening := by
  induction t generalizing n with
  | nil => rfl
  | cons c t ih => rw [after_cons, ih h.2, opening_advance h.1]

/-- The place outside of the tag. -/
def outside (n : Nesting) : Nesting := { n with inTag := false }

theorem advance_outside (hin : n.inTag = true) (h : n.mark c = .text) :
    n.outside.advance c = (n.advance c).outside ∧ (n.advance c).inTag = true ∧
      n.outside.mark c ≠ .openTag ∧ n.outside.mark c ≠ .closeTag := by
  obtain ⟨depth, inTag, escaped⟩ := n
  obtain rfl : inTag = true := hin
  unfold mark at h
  unfold outside advance mark
  split_ifs at h ⊢ <;> simp_all

theorem Undelimited.after_outside (hin : n.inTag = true) (h : n.Undelimited t) :
    n.outside.after t = (n.after t).outside := by
  induction t generalizing n with
  | nil => rfl
  | cons c t ih =>
    obtain ⟨hadvance, hin', -⟩ := advance_outside hin h.1
    rw [after_cons, after_cons, hadvance, ih hin' h.2]

end Nesting

namespace Scanner

theorem read_undelimited {s : Scanner} {t : Text} (h : s.nesting.Undelimited t) :
    t.foldl step s =
      { s with
        nesting := s.nesting.after t
        offset := s.offset + t.byteLength
        pending := t.reverse ++ s.pending } := by
  induction t generalizing s with
  | nil => rfl
  | cons c t ih =>
    have hstep : s.step c = s.keep c := by simp only [step, h.1]
    rw [List.foldl_cons, hstep, ih h.2]
    simp [keep, skip, Text.byteLength, Nat.add_assoc]

end Scanner

theorem scan_of_undelimited {t : Text} (h : Nesting.Undelimited {} t) :
    scan t = ⟨Section.ofPlain t, Scanner.unfinished (Nesting.after {} t)⟩ := by
  rw [scan, Scanner.read_undelimited h]
  simp [Scanner.finish, Scanner.endPlain_eq]

/-! ### Closed sections -/

/-- The place behind the delimiter that opens a section of this kind. -/
def SectionKind.place : SectionKind → Nesting
  | tag => { inTag := true }
  | action => { depth := 1 }
  | plain | unparsed => {}

/-- The opening delimiter decides the place. -/
theorem SectionKind.place_eq_of_opening {kind kind' : SectionKind}
    (h : kind.place.opening = kind'.place.opening) : kind.place = kind'.place := by
  cases kind <;> cases kind' <;> first | rfl | simp [place, Nesting.opening] at h

/-- The text of the section has no delimiter in it and ends in the place where it begins. -/
structure Section.Closed (x : Section) : Prop where
  undelimited : x.kind.place.Undelimited x.raw
  after_eq : x.kind.place.after x.raw = x.kind.place

theorem Section.Closed.after_source {x : Section} (h : x.Closed) :
    Nesting.after {} x.source = {} := by
  obtain ⟨kind, raw⟩ := x
  have hback : kind.place.after raw = kind.place := h.after_eq
  cases kind with
  | plain | unparsed => exact hback
  | tag =>
    have hopen : Nesting.advance {} '#' = SectionKind.place .tag := rfl
    change Nesting.after {} ('#' :: (raw ++ ['#'])) = {}
    rw [Nesting.after_cons, hopen, Nesting.after_append, hback]
    rfl
  | action =>
    have hopen : Nesting.advance {} '[' = SectionKind.place .action := rfl
    change Nesting.after {} ('[' :: (raw ++ [']'])) = {}
    rw [Nesting.after_cons, hopen, Nesting.after_append, hback]
    rfl

theorem Section.after_flatMap_source {xs : List Section} (h : ∀ x ∈ xs, x.Closed) :
    Nesting.after {} (xs.flatMap source) = {} := by
  induction xs with
  | nil => rfl
  | cons x xs ih =>
    obtain ⟨hx, hxs⟩ := List.forall_mem_cons.1 h
    rw [List.flatMap_cons, Nesting.after_append, hx.after_source, ih hxs]

/-- All sections that a scanner has ended are closed, and its pending text is the beginning of one
more. -/
structure Scanner.Enclosing (s : Scanner) : Prop where
  closed : ∀ x ∈ s.sections, x.Closed
  pending : ∃ kind : SectionKind, kind.place.Undelimited s.pending.reverse ∧
    kind.place.after s.pending.reverse = s.nesting

namespace Scanner

variable {s : Scanner}

/-- Which place the pending text begins at can be told from where it has got to. -/
theorem Enclosing.of_nesting (h : s.Enclosing) (kind : SectionKind)
    (hn : s.nesting = kind.place) :
    Section.Closed ⟨kind, s.pending.reverse⟩ := by
  obtain ⟨start, hund, hafter⟩ := h.pending
  have hplace : start.place = kind.place :=
    SectionKind.place_eq_of_opening (by rw [← hn, ← hafter, hund.opening_after])
  rw [hplace] at hund hafter
  exact ⟨hund, hafter.trans hn⟩

theorem Enclosing.closed_endPlain (h : s.Enclosing) (hn : s.nesting = {}) :
    ∀ x ∈ s.endPlain.sections, x.Closed := by
  intro x hx
  rw [endPlain_eq] at hx
  rcases List.mem_append.1 hx with hx | hx
  · rw [(Section.mem_ofPlain.1 hx).1]
    exact h.of_nesting .plain hn
  · exact h.closed x hx

theorem Enclosing.step (h : s.Enclosing) (c : Char) : (s.step c).Enclosing := by
  have spec := s.nesting.mark_spec c
  unfold Scanner.step
  cases hm : s.nesting.mark c <;> rw [hm] at spec <;> simp only at spec ⊢
  case text =>
    obtain ⟨kind, hund, hafter⟩ := h.pending
    refine ⟨h.closed, kind, ?_, ?_⟩
    · simp only [keep, List.reverse_cons, Nesting.undelimited_append]
      rw [hafter]
      exact ⟨hund, hm, trivial⟩
    · simp only [keep, skip, List.reverse_cons, Nesting.after_append]
      rw [hafter]
      rfl
  case openAction =>
    obtain ⟨-, hn, hadvance⟩ := spec
    exact ⟨h.closed_endPlain hn, .action, by simp [skip, Nesting.Undelimited],
      by simp [skip, hadvance, SectionKind.place]⟩
  case openTag =>
    obtain ⟨-, hn, hadvance⟩ := spec
    exact ⟨h.closed_endPlain hn, .tag, by simp [skip, Nesting.Undelimited],
      by simp [skip, hadvance, SectionKind.place]⟩
  case closeAction =>
    obtain ⟨-, hn, hadvance⟩ := spec
    refine ⟨fun x hx => ?_, .plain, by simp [skip, endAs, Nesting.Undelimited],
      by simp [skip, endAs, hadvance, SectionKind.place]⟩
    rcases List.mem_cons.1 hx with rfl | hx
    · exact h.of_nesting .action hn
    · exact h.closed x hx
  case closeTag =>
    obtain ⟨-, hn, hadvance⟩ := spec
    refine ⟨fun x hx => ?_, .plain, by simp [skip, endAs, Nesting.Undelimited],
      by simp [skip, endAs, hadvance, SectionKind.place]⟩
    rcases List.mem_cons.1 hx with rfl | hx
    · exact h.of_nesting .tag hn
    · exact h.closed x hx

theorem Enclosing.read (h : s.Enclosing) (t : Text) : (t.foldl Scanner.step s).Enclosing := by
  induction t generalizing s with
  | nil => exact h
  | cons c t ih => exact ih (h.step c)

theorem enclosing_start : Enclosing {} := ⟨by simp, .plain, trivial, rfl⟩

end Scanner

/-- **A tag or an action that was cut out of a rule is closed.** -/
theorem closed_of_mem_scan {rule : Text} {x : Section} (h : x ∈ (scan rule).sections)
    (hkind : x.kind ≠ .plain) : x.Closed := by
  have hread := Scanner.enclosing_start.read rule
  rw [scan, Scanner.sections_finish, List.mem_append] at h
  rcases h with h | h
  · exact hread.closed x (List.mem_reverse.1 h)
  · -- only the last section may be unfinished, and it is plain
    exact absurd (Section.kind_of_mem_ofPlain h) hkind

theorem closed_of_mem_scan_of_after {rule : Text} {x : Section} (h : x ∈ (scan rule).sections)
    (hafter : Nesting.after {} rule = {}) : x.Closed := by
  have hread := Scanner.enclosing_start.read rule
  refine hread.closed_endPlain ?_ x (List.mem_reverse.1 h)
  exact (Scanner.nesting_read {} rule).trans hafter

/-! ### Inside a tag -/

namespace Scanner

/-- Text that has no delimiter in it inside of a tag has no tag in it outside. -/
theorem kind_ne_tag_of_mem_read {s : Scanner} {n : Nesting} {t : Text} (h : n.Undelimited t)
    (hin : n.inTag = true) (hn : s.nesting = n.outside) (hs : ∀ x ∈ s.sections, x.kind ≠ .tag) :
    ∀ x ∈ (t.foldl step s).sections, x.kind ≠ .tag := by
  induction t generalizing s n with
  | nil => exact hs
  | cons c t ih =>
    obtain ⟨hadvance, hin', hopen, hclose⟩ := Nesting.advance_outside hin h.1
    rw [List.foldl_cons]
    refine ih h.2 hin' (by rw [nesting_step, hn, hadvance]) ?_
    have hplain : ∀ x ∈ s.endPlain.sections, x.kind ≠ .tag := by
      intro x hx
      unfold endPlain at hx
      split_ifs at hx
      · exact hs x hx
      · rcases List.mem_cons.1 hx with rfl | hx
        · simp
        · exact hs x hx
    unfold step
    rw [hn]
    cases hm : n.outside.mark c with
    | text => exact hs
    | openAction => exact hplain
    | closeAction =>
      intro x hx
      rcases List.mem_cons.1 hx with rfl | hx
      · simp
      · exact hs x hx
    | openTag => exact absurd hm hopen
    | closeTag => exact absurd hm hclose

end Scanner

namespace Section.Closed

variable {raw : Text}

theorem after_raw (h : Closed ⟨.tag, raw⟩) : Nesting.after {} raw = {} := by
  have houtside := h.undelimited.after_outside rfl
  rw [h.after_eq] at houtside
  exact houtside

theorem kind_ne_tag (h : Closed ⟨.tag, raw⟩) {x : Section} (hx : x ∈ (scan raw).sections) :
    x.kind ≠ .tag := by
  have hread : ∀ x ∈ (raw.foldl Scanner.step {}).sections, x.kind ≠ .tag :=
    Scanner.kind_ne_tag_of_mem_read h.undelimited rfl rfl (by simp)
  rw [scan, Scanner.sections_finish, List.mem_append] at hx
  rcases hx with hx | hx
  · exact hread x (List.mem_reverse.1 hx)
  · simp [kind_of_mem_ofPlain hx]

theorem preaction (h : Closed ⟨.tag, raw⟩) {clause : Tag.Clause}
    (hread : Tag.read raw = .clause clause) {p : Section} (hp : p ∈ clause.preactions) :
    p.kind = .action := by
  obtain ⟨hmem, hplain⟩ := (Tag.of_read_eq_clause hread).2 p hp
  have htag := h.kind_ne_tag hmem
  have hunparsed := kind_ne_of_mem_scan hmem
  cases hk : p.kind <;> simp_all

end Section.Closed

theorem Text.exists_pieces_eq_append (sep : Char) (t : Text) :
    ∃ rest, t = (Text.pieces sep t).headD [] ++ rest := by
  induction t with
  | nil => exact ⟨[], rfl⟩
  | cons c t ih =>
    rw [Text.pieces_cons]
    split_ifs
    · exact ⟨c :: t, rfl⟩
    · obtain ⟨rest, hrest⟩ := ih
      refine ⟨rest, ?_⟩
      cases hp : Text.pieces sep t with
      | nil => exact absurd hp (Text.pieces_ne_nil sep t)
      | cons piece pieces =>
        rw [hp] at hrest
        simp only [Text.consPiece, List.headD_cons, List.cons_append] at hrest ⊢
        rw [← hrest]

/-- **The placeholder for the symbol of a tag is plain text**, and all of it. -/
theorem scan_placeholder {raw : Text} (h : Section.Closed ⟨.tag, raw⟩) {clause : Tag.Clause}
    (hread : Tag.read raw = .clause clause) :
    (scan (Text.placeholder clause.symbol)).sections =
      [⟨.plain, Text.placeholder clause.symbol⟩] := by
  -- the symbol is the beginning of plain text in which no delimiter occurs
  obtain ⟨main, hmain, hsymbol⟩ := Tag.exists_main_of_read_eq_clause hread
  have hclosed : Section.Closed ⟨.plain, main⟩ := closed_of_mem_scan_of_after hmain h.after_raw
  obtain ⟨rest, hrest⟩ := Text.exists_pieces_eq_append '.' main
  have hund : Nesting.Undelimited {} clause.symbol := by
    have hall : Nesting.Undelimited {} main := hclosed.undelimited
    rw [hrest, ← hsymbol, Nesting.undelimited_append] at hall
    exact hall.1
  have hparen : ∀ n : Nesting, n.Undelimited [')', ')'] := fun n => by
    simp [Nesting.Undelimited, Nesting.mark]
  have hplaceholder : Nesting.Undelimited {} (Text.placeholder clause.symbol) := by
    have hopen : Nesting.Undelimited {} (['(', '('] ++ clause.symbol) :=
      Nesting.undelimited_append.2 ⟨by decide, hund⟩
    exact Nesting.undelimited_append.2 ⟨hopen, hparen _⟩
  rw [scan_of_undelimited hplaceholder]
  rfl

end TextGrammar
