import Mathlib.Data.List.Chain
import TextGrammar.Proofs.Markup.Balanced
import TextGrammar.Proofs.Markup.Reports

/-!
# Reading sections back

Sections that are written one after the other with their delimiters make a rule. If they are closed,
no plain one is empty and no two plain ones stand side by side, a scan of this rule gives them back
as they were (`scan_flatMap_source`). The delimiters around a tag or an action lead the scanner back
to where it started, and plain text is pending up to the next delimiter.

Whether a section is closed can be told from its text, brackets and escape marks being counted
(`Section.WellFormed.closed`). So two different lists of such sections never make the same rule
(`scan_rendered`).
-/

namespace TextGrammar

namespace Scanner

variable {s : Scanner}

theorem step_of_opens {c : Char}
    (hm : s.nesting.mark c = .openTag ∨ s.nesting.mark c = .openAction) :
    s.step c =
      { s with
        nesting := s.nesting.advance c
        offset := s.offset + c.utf8Size
        pending := []
        sections := s.endPlain.sections } := by
  unfold step
  rcases hm with hm | hm <;> rw [hm] <;> simp [skip, endPlain_eq]

theorem step_of_closes {c : Char} {kind : SectionKind}
    (hm : kind = .tag ∧ s.nesting.mark c = .closeTag ∨
      kind = .action ∧ s.nesting.mark c = .closeAction) :
    s.step c =
      { s with
        nesting := s.nesting.advance c
        offset := s.offset + c.utf8Size
        pending := []
        sections := ⟨kind, s.pending.reverse⟩ :: s.sections
        problems := (Section.emptyReport ⟨kind, s.pending.reverse⟩ s.offset).reverse ++
          s.problems } := by
  unfold step
  rcases hm with ⟨rfl, hm⟩ | ⟨rfl, hm⟩ <;> rw [hm] <;> cases hpending : s.pending with
  | nil => simp [skip, endAs, hpending, Section.emptyReport]
  | cons c pending =>
    rw [Section.emptyReport_eq_nil (.inr (by simp))]
    simp [skip, endAs, hpending]

theorem read_delimited {kind : SectionKind} {raw : Text} {o c : Char}
    (hs : s.nesting = {}) (hx : Section.Closed ⟨kind, raw⟩)
    (hopens : Nesting.mark {} o = .openTag ∨ Nesting.mark {} o = .openAction)
    (hplace : Nesting.advance {} o = kind.place)
    (hcloses : kind = .tag ∧ kind.place.mark c = .closeTag ∨
      kind = .action ∧ kind.place.mark c = .closeAction)
    (hback : kind.place.advance c = {}) :
    (o :: (raw ++ [c])).foldl step s =
      { s with
        offset := s.offset + Text.byteLength (o :: (raw ++ [c]))
        pending := []
        sections := ⟨kind, raw⟩ :: s.endPlain.sections
        problems := (Section.emptyReport ⟨kind, raw⟩ (s.offset + o.utf8Size)).reverse ++
          s.problems } := by
  obtain ⟨hund, hafter⟩ := hx
  have hopened : s.step o =
      { s with nesting := kind.place, offset := s.offset + o.utf8Size, pending := [],
               sections := s.endPlain.sections } := by
    rw [step_of_opens (by rwa [hs]), hs, hplace]
  have hkept : raw.foldl step (s.step o) =
      { s with nesting := kind.place, offset := s.offset + o.utf8Size + raw.byteLength,
               pending := raw.reverse, sections := s.endPlain.sections } := by
    rw [hopened, read_undelimited hund]
    simp only [hafter, List.append_nil]
  have hreport : Section.emptyReport ⟨kind, raw⟩ (s.offset + o.utf8Size + raw.byteLength) =
      Section.emptyReport ⟨kind, raw⟩ (s.offset + o.utf8Size) := by
    cases raw with
    | nil => rfl
    | cons c raw =>
      have hraw : (Section.mk kind (c :: raw)).raw ≠ [] := List.cons_ne_nil c raw
      rw [Section.emptyReport_eq_nil (.inr hraw), Section.emptyReport_eq_nil (.inr hraw)]
  rw [List.foldl_cons, List.foldl_append, hkept, List.foldl_cons, List.foldl_nil,
    step_of_closes hcloses]
  simp [hback, hs, Nat.add_assoc, ← hreport]

theorem read_source {x : Section} (hs : s.nesting = {}) (hx : x.Closed)
    (hkind : x.kind = .tag ∨ x.kind = .action) :
    x.source.foldl step s =
      { s with
        offset := s.offset + x.source.byteLength
        pending := []
        sections := x :: s.endPlain.sections
        problems := (x.emptyReport (s.offset + 1)).reverse ++ s.problems } := by
  obtain ⟨kind, raw⟩ := x
  obtain rfl | rfl : kind = .tag ∨ kind = .action := hkind
  · exact read_delimited (o := '#') (c := '#') hs hx (.inl rfl) rfl (.inl ⟨rfl, rfl⟩) rfl
  · exact read_delimited (o := '[') (c := ']') hs hx (.inr rfl) rfl (.inr ⟨rfl, rfl⟩) rfl

end Scanner

/-! ### Sections one after the other -/

namespace Section

/-- No two plain sections stand side by side. -/
def Parted (xs : List Section) : Prop := xs.IsChain fun x y => x.kind = .plain → y.kind ≠ .plain

instance (xs : List Section) : Decidable (Parted xs) := inferInstanceAs (Decidable (xs.IsChain _))

/-- Sections that can be read back: all are closed, no plain one is empty, and no two of these
stand side by side. -/
structure Readable (xs : List Section) : Prop where
  closed : ∀ x ∈ xs, x.Closed
  kind_ne : ∀ x ∈ xs, x.kind ≠ .unparsed
  raw_ne : ∀ x ∈ xs, x.kind = .plain → x.raw ≠ []
  parted : Parted xs

theorem Readable.tail {x : Section} {xs : List Section} (h : Readable (x :: xs)) : Readable xs where
  closed y hy := h.closed y (List.mem_cons_of_mem _ hy)
  kind_ne y hy := h.kind_ne y (List.mem_cons_of_mem _ hy)
  raw_ne y hy := h.raw_ne y (List.mem_cons_of_mem _ hy)
  parted := h.parted.tail

/-- Closed tags and actions are readable, and so they are with plain text behind them. -/
theorem readable_append_ofPlain {xs : List Section} (hclosed : ∀ x ∈ xs, x.Closed)
    (hkind : ∀ x ∈ xs, x.kind = .tag ∨ x.kind = .action) {t : Text} (ht : Closed ⟨.plain, t⟩) :
    Readable (xs ++ ofPlain t) := by
  have hplain : ∀ x ∈ ofPlain t, x = ⟨.plain, t⟩ ∧ t ≠ [] := fun x hx => mem_ofPlain.1 hx
  have hne : ∀ x ∈ xs, x.kind ≠ .plain := by
    intro x hx h
    rcases hkind x hx with hk | hk <;> simp [hk] at h
  refine ⟨?_, ?_, ?_, ?_⟩
  · intro x hx
    rcases List.mem_append.1 hx with hx | hx
    · exact hclosed x hx
    · rw [(hplain x hx).1]
      exact ht
  · intro x hx
    rcases List.mem_append.1 hx with hx | hx
    · rcases hkind x hx with hk | hk <;> simp [hk]
    · simp [(hplain x hx).1]
  · intro x hx hk
    rcases List.mem_append.1 hx with hx | hx
    · exact absurd hk (hne x hx)
    · rw [(hplain x hx).1]
      exact (hplain x hx).2
  · induction xs with
    | nil =>
      unfold ofPlain
      split_ifs
      · exact .nil
      · exact .singleton _
    | cons x xs ih =>
      obtain ⟨-, hclosed⟩ := List.forall_mem_cons.1 hclosed
      obtain ⟨-, hkind⟩ := List.forall_mem_cons.1 hkind
      obtain ⟨hx, hne⟩ := List.forall_mem_cons.1 hne
      exact (ih hclosed hkind hne).cons fun y _ h => absurd h hx

end Section

namespace Scanner

variable {s t : Scanner}

theorem read_section {x : Section} (hs : s.nesting = {}) (hx : x.Closed)
    (hkind : x.kind ≠ .unparsed) (hraw : x.kind = .plain → x.raw ≠ [])
    (hborder : s.pending ≠ [] → x.kind ≠ .plain) (ht : x.source.foldl step s = t) :
    t.nesting = {} ∧ t.offset = s.offset + x.source.byteLength ∧
      (t.pending ≠ [] → x.kind = .plain) ∧ t.endPlain.sections = x :: s.endPlain.sections ∧
      t.problems = (x.emptyReport (s.offset + 1)).reverse ++ s.problems := by
  subst ht
  by_cases hplain : x.kind = .plain
  · -- plain text is pending up to the next delimiter
    have hpending : s.pending = [] := by
      by_contra h
      exact hborder h hplain
    have hsource : x.source = x.raw := by simp [Section.source, hplain]
    have hplace : x.kind.place = s.nesting := by rw [hplain, hs]; rfl
    have hund := hx.undelimited
    have hafter := hx.after_eq
    rw [hplace] at hund hafter
    have hsection : x = ⟨.plain, x.raw⟩ := by rw [← hplain]
    rw [hsource, read_undelimited hund, hafter, hpending, List.append_nil]
    refine ⟨hs, rfl, fun _ => hplain, ?_, ?_⟩
    · simp [endPlain, hpending, hraw hplain, ← hsection]
    · rw [Section.emptyReport_eq_nil (.inl hplain)]
      rfl
  · have hdelimited : x.kind = .tag ∨ x.kind = .action := by
      cases hk : x.kind <;> simp_all
    rw [read_source hs hx hdelimited]
    exact ⟨hs, rfl, fun h => absurd rfl h, rfl, rfl⟩

/-- Readable sections one after the other lead a scanner back to where it started, and are all that
it has read in between. -/
theorem read_flatMap_source {xs : List Section} (hs : s.nesting = {}) (hxs : Section.Readable xs)
    (hborder : s.pending ≠ [] → ∀ x ∈ xs.head?, x.kind ≠ .plain)
    (ht : (xs.flatMap Section.source).foldl step s = t) :
    t.nesting = {} ∧ t.endPlain.sections = xs.reverse ++ s.endPlain.sections ∧
      t.problems = (Section.emptyReports s.offset xs).reverse ++ s.problems := by
  induction xs generalizing s with
  | nil =>
    subst ht
    exact ⟨hs, rfl, rfl⟩
  | cons x xs ih =>
    have hx := List.mem_cons_self (a := x) (l := xs)
    obtain ⟨hnesting, hoffset, hpending, hsections, hproblems⟩ :=
      read_section hs (hxs.closed x hx) (hxs.kind_ne x hx) (hxs.raw_ne x hx)
        (fun h => hborder h x rfl) rfl
    -- plain text that is pending meets a delimiter next
    have hparted : (x.source.foldl step s).pending ≠ [] → ∀ y ∈ xs.head?, y.kind ≠ .plain :=
      fun h y hy => hxs.parted.rel_head? hy (hpending h)
    rw [List.flatMap_cons, List.foldl_append] at ht
    obtain ⟨hnesting', hsections', hproblems'⟩ := ih hnesting hxs.tail hparted ht
    refine ⟨hnesting', ?_, ?_⟩
    · rw [hsections', hsections, List.reverse_cons, List.append_assoc, List.singleton_append]
    · rw [hproblems', hproblems, hoffset, Section.emptyReports, List.reverse_append,
        List.append_assoc]

end Scanner

/-- **Readable sections are read back as they were written.** -/
theorem scan_flatMap_source {xs : List Section} (hxs : Section.Readable xs) :
    scan (xs.flatMap Section.source) = ⟨xs, Section.emptyReports 0 xs⟩ := by
  obtain ⟨hnesting, hsections, hproblems⟩ :=
    Scanner.read_flatMap_source (s := {}) rfl hxs (fun h => absurd rfl h) rfl
  have hfinish : scan (xs.flatMap Section.source) =
      ((xs.flatMap Section.source).foldl Scanner.step {}).finish := rfl
  rw [hfinish, Scanner.finish, hsections, hproblems, hnesting]
  simp [Scanner.unfinished, Scanner.endPlain]

theorem scan_flatMap_source_append {xs : List Section} (hclosed : ∀ x ∈ xs, x.Closed)
    (hkind : ∀ x ∈ xs, x.kind = .tag ∨ x.kind = .action) (hraw : ∀ x ∈ xs, x.raw ≠ []) {t : Text}
    (ht : Section.Closed ⟨.plain, t⟩) :
    scan (xs.flatMap Section.source ++ t) = ⟨xs ++ Section.ofPlain t, []⟩ := by
  have hscan := scan_flatMap_source (Section.readable_append_ofPlain hclosed hkind ht)
  rwa [List.flatMap_append, Section.flatMap_source_ofPlain, Section.emptyReports_append,
    Section.emptyReports_ofPlain, List.append_nil,
    Section.emptyReports_eq_nil fun x hx => .inr (hraw x hx)] at hscan

theorem scan_source_tag {raw : Text} (h : Section.Closed ⟨.tag, raw⟩) (hraw : raw ≠ []) :
    scan (Section.source ⟨.tag, raw⟩) = ⟨[⟨.tag, raw⟩], []⟩ := by
  have hscan := scan_flatMap_source_append (List.forall_mem_singleton.2 h)
    (List.forall_mem_singleton.2 (.inl rfl)) (List.forall_mem_singleton.2 hraw)
    (show Section.Closed ⟨.plain, []⟩ from ⟨trivial, rfl⟩)
  rwa [List.flatMap_singleton, List.append_nil] at hscan

/-! ### Sections told by their texts -/

namespace Nesting

variable {n : Nesting} {t : Text}

theorem undelimited_of_escaped
    (h : ∀ k (hk : k < t.length), t[k] ∈ ['#', '[', ']'] → (n.after (t.take k)).escaped = true) :
    n.Undelimited t ∧ n.after t = { n with escaped := (n.after t).escaped } := by
  induction t generalizing n with
  | nil => exact ⟨trivial, rfl⟩
  | cons c t ih =>
    have hc : c ∈ ['#', '[', ']'] → n.escaped = true := h 0 (Nat.zero_lt_succ _)
    have hstep : n.mark c = .text ∧ n.advance c = { n with escaped := (n.advance c).escaped } := by
      unfold mark advance
      cases hn : n.escaped with
      | true => simp
      | false =>
        have hmarkup : c ≠ '#' ∧ c ≠ '[' ∧ c ≠ ']' := by simpa [hn] using hc
        obtain ⟨hhash, hopen, hclose⟩ := hmarkup
        simp only [hhash, hopen, hclose, false_and, if_false, Bool.false_eq_true, true_and]
        by_cases hescape : c = '\\'
        · simp only [hescape, if_true]
        · simp only [hescape, if_false, hn]
          rw [← hn]
    obtain ⟨hmark, hadvance⟩ := hstep
    obtain ⟨hund, hafter⟩ := ih (n := n.advance c) fun k hk => h (k + 1) (Nat.succ_lt_succ hk)
    refine ⟨⟨hmark, hund⟩, ?_⟩
    rw [after_cons, hafter, hadvance]

theorem inTag_of_opening (hn : n.opening = ['#']) : n.inTag = true := by
  by_contra hin
  unfold opening at hn
  by_cases hpos : 0 < n.depth <;> simp [hin, hpos] at hn

/-- In a tag, text is no delimiter whose every `#` is escaped or stands in brackets. -/
theorem undelimited_of_hidden (hin : n.inTag = true)
    (h : ∀ k (hk : k < t.length), t[k] = '#' →
      (n.outside.after (t.take k)).escaped = true ∨ (n.outside.after (t.take k)).depth ≠ 0) :
    n.Undelimited t := by
  induction t generalizing n with
  | nil => trivial
  | cons c t ih =>
    have hc : c = '#' → n.escaped = true ∨ n.depth ≠ 0 := h 0 (Nat.zero_lt_succ _)
    have hmark : n.mark c = .text := by
      unfold mark
      rw [hin]
      split_ifs <;> simp_all
    obtain ⟨hadvance, hin', -⟩ := advance_outside hin hmark
    refine ⟨hmark, ih hin' fun k hk => ?_⟩
    rw [← hadvance]
    exact h (k + 1) (Nat.succ_lt_succ hk)

end Nesting

namespace Section

/-- A section as it is told by its text. Plain text is not empty, and every `#` and every bracket in
it is escaped; the brackets of a tag or an action are balanced; and every `#` in a tag is escaped or
stands in brackets. No escape mark is left open. -/
def WellFormed (x : Section) : Prop :=
  match x with
  | ⟨.plain, raw⟩ =>
    raw ≠ [] ∧ Escape.isOpen raw = false ∧
      ∀ k (h : k < raw.length), raw[k] ∈ ['#', '[', ']'] → Escape.isOpen (raw.take k) = true
  | ⟨.tag, raw⟩ =>
    Nesting.Balanced raw ∧
      ∀ k (h : k < raw.length), raw[k] = '#' →
        Escape.isOpen (raw.take k) = true ∨ (Nesting.after {} (raw.take k)).depth ≠ 0
  | ⟨.action, raw⟩ => Nesting.Balanced raw
  | ⟨.unparsed, _⟩ => False

instance (x : Section) : Decidable x.WellFormed :=
  match x with
  | ⟨.plain, _⟩ => inferInstanceAs (Decidable (_ ∧ _ ∧ _))
  | ⟨.tag, _⟩ => inferInstanceAs (Decidable (_ ∧ _))
  | ⟨.action, raw⟩ => inferInstanceAs (Decidable (Nesting.Balanced raw))
  | ⟨.unparsed, _⟩ => isFalse id

theorem WellFormed.closed {x : Section} (h : x.WellFormed) : x.Closed := by
  obtain ⟨kind, raw⟩ := x
  cases kind with
  | unparsed => exact h.elim
  | plain =>
    obtain ⟨-, hopen, hescaped⟩ := h
    have hmarks : ∀ u : Text, (Nesting.after {} u).escaped = Escape.isOpen u :=
      Nesting.escaped_after {}
    obtain ⟨hund, hafter⟩ := Nesting.undelimited_of_escaped (n := {}) (t := raw) fun k hk hc => by
      rw [hmarks, hescaped k hk hc]
    refine ⟨hund, hafter.trans ?_⟩
    rw [hmarks, hopen]
    rfl
  | action => exact closed_action_iff.2 h
  | tag =>
    obtain ⟨⟨-, hdepth, hescaped⟩, hhidden⟩ := h
    let place : Nesting := { inTag := true }
    have hund : place.Undelimited raw := by
      refine Nesting.undelimited_of_hidden rfl fun k hk hc => ?_
      exact (hhidden k hk hc).imp_left fun h => (Nesting.escaped_after {} _).trans h
    -- outside of the tag the text leads back, and it does not leave the tag
    have houtside : Nesting.after {} raw = (place.after raw).outside := hund.after_outside rfl
    have hopening : (place.after raw).opening = ['#'] := hund.opening_after
    have hin : (place.after raw).inTag = true := Nesting.inTag_of_opening hopening
    rw [houtside] at hdepth hescaped
    refine ⟨hund, ?_⟩
    change place.after raw = { depth := 0, inTag := true, escaped := false }
    rw [← hin, ← hdepth, ← hescaped]
    rfl

theorem readable_of_wellFormed {xs : List Section} (hxs : ∀ x ∈ xs, x.WellFormed)
    (hparted : Parted xs) : Readable xs where
  closed x hx := (hxs x hx).closed
  kind_ne := by
    rintro ⟨kind, raw⟩ hx rfl
    exact hxs _ hx
  raw_ne := by
    rintro ⟨kind, raw⟩ hx rfl
    exact (hxs _ hx).1
  parted := hparted

end Section

/-- **Well-formed sections are read back as they were written.**  A scan of the rule that they make
gives the same sections, and reports that a tag or an action is empty once for each that is. So no
other well-formed sections make this rule. -/
theorem scan_rendered {xs : List Section} (hxs : ∀ x ∈ xs, x.WellFormed)
    (hparted : Section.Parted xs) :
    scan (xs.flatMap Section.source) = ⟨xs, Section.emptyReports 0 xs⟩ ∧
      ∀ ys : List Section, (∀ y ∈ ys, y.WellFormed) → Section.Parted ys →
        ys.flatMap Section.source = xs.flatMap Section.source → ys = xs := by
  have hscan := scan_flatMap_source (Section.readable_of_wellFormed hxs hparted)
  refine ⟨hscan, fun ys hys hparted' hsame => ?_⟩
  have hscan' := scan_flatMap_source (Section.readable_of_wellFormed hys hparted')
  rw [hsame, hscan] at hscan'
  exact (congrArg Scanned.sections hscan').symm

/-- Tags in brackets, brackets in a tag, an empty tag and an empty action, escaped markup, and a
character of two bytes. -/
theorem scan_rendered_nested :
    let xs : List Section :=
      [⟨.plain, "é\\\\\\[".toList⟩, ⟨.tag, []⟩, ⟨.action, "x:[#]\\]#".toList⟩,
        ⟨.tag, "[#y#]z\\#".toList⟩, ⟨.action, []⟩, ⟨.plain, "b".toList⟩]
    (∀ x ∈ xs, x.WellFormed) ∧ Section.Parted xs ∧
      xs.flatMap Section.source = "é\\\\\\[##[x:[#]\\]#]#[#y#]z\\##[]b".toList ∧
      scan "é\\\\\\[##[x:[#]\\]#]#[#y#]z\\##[]b".toList = ⟨xs, [.emptyTag 7, .emptyAction 29]⟩ := by
  intro xs
  have hxs : ∀ x ∈ xs, x.WellFormed := by decide +kernel
  have hparted : Section.Parted xs := by decide +kernel
  have hrule : xs.flatMap Section.source = "é\\\\\\[##[x:[#]\\]#]#[#y#]z\\##[]b".toList := by
    decide +kernel
  have hscan := (scan_rendered hxs hparted).1
  rw [hrule] at hscan
  have hreports : Section.emptyReports 0 xs = [.emptyTag 7, .emptyAction 29] := by decide +kernel
  exact ⟨hxs, hparted, hrule, hscan.trans (by rw [hreports])⟩

end TextGrammar
