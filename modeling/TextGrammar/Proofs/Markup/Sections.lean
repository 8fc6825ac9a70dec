import Mathlib.Tactic.SplitIfs
import TextGrammar.Markup.Section

/-!
# What a scan has read

A scanner accounts for every character it has read: the sources of its sections, the mark that
opened the section under way, and the pending text make up the text read so far
(`Scanner.text_read`). So no section is longer than the rule it comes from, and a tag or an action
is shorter by its two delimiters.

What the four delimiters do to the place in the rule is said once, in `Nesting.mark_spec`.
-/

namespace TextGrammar

namespace Nesting

/-- The mark that opened the tag or the action that a place lies in. -/
def opening (n : Nesting) : Text :=
  if n.inTag then ['#'] else if 0 < n.depth then ['['] else []

/-- Delimiters occur in four places only and lead to known ones; any other character leaves the
opening mark as it is. -/
theorem mark_spec (n : Nesting) (c : Char) :
    match n.mark c with
    | .openAction => c = '[' ∧ n = {} ∧ n.advance c = { depth := 1 }
    | .closeAction => c = ']' ∧ n = { depth := 1 } ∧ n.advance c = {}
    | .openTag => c = '#' ∧ n = {} ∧ n.advance c = { inTag := true }
    | .closeTag => c = '#' ∧ n = { inTag := true } ∧ n.advance c = {}
    | .text => (n.advance c).opening = n.opening := by
  obtain ⟨depth, inTag, escaped⟩ := n
  unfold mark
  split_ifs with he ho hc hh ht
  · simp only at he
    simp [advance, opening, he]
  · obtain ⟨rfl, hd, hi⟩ := ho
    simp only at he hd hi
    simp [advance, he, hd, hi]
  · obtain ⟨rfl, hd, hi⟩ := hc
    simp only at he hd hi
    simp [advance, he, hd, hi]
  · obtain ⟨rfl, hd⟩ := hh
    simp only at he hd ht
    simp [advance, he, hd, ht]
  · obtain ⟨rfl, hd⟩ := hh
    simp only at he hd ht
    simp [advance, he, hd, ht]
  · cases inTag
    · -- outside a tag the depth does not cross the border between zero and one
      simp only [advance, opening, and_true, not_and] at he ho hc hh ⊢
      split_ifs <;> simp_all <;> omega
    · simp only [advance, opening, not_and] at he hh ⊢
      split_ifs <;> simp_all

end Nesting

namespace Scanner

@[simp] theorem pending_endPlain (s : Scanner) : s.endPlain.pending = [] := by
  unfold endPlain
  split_ifs with h
  · exact List.isEmpty_iff.1 h
  · rfl

@[simp] theorem nesting_endPlain (s : Scanner) : s.endPlain.nesting = s.nesting := by
  unfold endPlain
  split_ifs <;> rfl

@[simp] theorem problems_endPlain (s : Scanner) : s.endPlain.problems = s.problems := by
  unfold endPlain
  split_ifs <;> rfl

/-- The text that a scanner has read. -/
def text (s : Scanner) : Text :=
  s.sections.reverse.flatMap Section.source ++ s.nesting.opening ++ s.pending.reverse

theorem sources_endPlain (s : Scanner) :
    s.endPlain.sections.reverse.flatMap Section.source =
      s.sections.reverse.flatMap Section.source ++ s.pending.reverse := by
  unfold endPlain
  split_ifs with h
  · simp [List.isEmpty_iff.1 h]
  · simp [Section.source]

theorem text_step (s : Scanner) (c : Char) : (s.step c).text = s.text ++ [c] := by
  have spec := s.nesting.mark_spec c
  unfold step
  cases hm : s.nesting.mark c <;> rw [hm] at spec <;> simp only at spec ⊢
  case text => simp [text, keep, skip, spec]
  case openAction | openTag =>
    -- the pending text becomes a section and the delimiter the opening mark
    obtain ⟨rfl, hn, ha⟩ := spec
    rw [hn] at ha
    simp [text, skip, sources_endPlain, ha, hn, Nesting.opening]
  case closeAction | closeTag =>
    -- the opening mark, the pending text and the delimiter become the source of a section
    obtain ⟨rfl, hn, ha⟩ := spec
    rw [hn] at ha
    simp [text, skip, endAs, ha, hn, Nesting.opening, Section.source]

theorem text_read (s : Scanner) (t : Text) : (t.foldl step s).text = s.text ++ t := by
  induction t generalizing s with
  | nil => simp
  | cons c t ih => rw [List.foldl_cons, ih, text_step, List.append_assoc, List.singleton_append]

end Scanner

/-- The sources of the sections are the rule without the mark that opened its last section, if
that is not closed. -/
theorem scan_sources (rule : Text) :
    ∃ done pending, rule = done ++ (rule.foldl Scanner.step {}).nesting.opening ++ pending ∧
      (scan rule).sections.flatMap Section.source = done ++ pending := by
  refine ⟨_, _, ?_, Scanner.sources_endPlain _⟩
  exact (Scanner.text_read {} rule).symm

theorem length_source_le {rule : Text} {s : Section} (h : s ∈ (scan rule).sections) :
    s.source.length ≤ rule.length := by
  obtain ⟨done, pending, hrule, hsources⟩ := scan_sources rule
  obtain ⟨before, after, hsplit⟩ := List.append_of_mem h
  have hlen : done.length + pending.length ≤ rule.length := by
    have := congrArg List.length hrule
    simp only [List.length_append] at this
    omega
  have := congrArg List.length hsources
  simp only [hsplit, List.flatMap_append, List.flatMap_cons, List.length_append] at this
  omega

/-! ### What a scan can give -/

/-- The problems that are those of a scan. -/
def Diagnostic.isOfScan : Diagnostic → Bool
  | emptyTag _ | emptyAction _ | unclosedTag | tooManyOpen | tooManyClose => true
  | _ => false

/-- A scanner cuts out plain text that is not empty, tags and actions, and reports nothing but
problems of a scan. -/
structure Scanner.Plausible (s : Scanner) : Prop where
  kind_ne : ∀ x ∈ s.sections, x.kind ≠ .unparsed
  plain_ne : ∀ x ∈ s.sections, x.kind = .plain → x.raw ≠ []
  isOfScan : ∀ d ∈ s.problems, d.isOfScan = true

namespace Scanner

variable {s : Scanner}

theorem Plausible.endPlain (h : s.Plausible) : s.endPlain.Plausible := by
  unfold Scanner.endPlain
  split_ifs with hpending
  · exact h
  · have hplain : s.pending.reverse ≠ [] := by simpa using hpending
    exact ⟨List.forall_mem_cons.2 ⟨nofun, h.kind_ne⟩,
      List.forall_mem_cons.2 ⟨fun _ => hplain, h.plain_ne⟩, h.isOfScan⟩

theorem Plausible.endAs (h : s.Plausible) (kind : SectionKind) (empty : Nat → Diagnostic)
    (hkind : kind = .tag ∨ kind = .action) (hempty : ∀ n, (empty n).isOfScan = true) :
    (s.endAs kind empty).Plausible := by
  refine ⟨?_, ?_, ?_⟩
  · refine List.forall_mem_cons.2 ⟨?_, h.kind_ne⟩
    rcases hkind with rfl | rfl <;> exact nofun
  · refine List.forall_mem_cons.2 ⟨?_, h.plain_ne⟩
    rcases hkind with rfl | rfl <;> exact nofun
  · intro d hd
    simp only [Scanner.endAs] at hd
    split_ifs at hd
    · rcases List.mem_cons.1 hd with rfl | hd
      · exact hempty _
      · exact h.isOfScan d hd
    · exact h.isOfScan d hd

theorem Plausible.step (h : s.Plausible) (c : Char) : (s.step c).Plausible := by
  unfold Scanner.step
  cases s.nesting.mark c with
  | text => exact ⟨h.kind_ne, h.plain_ne, h.isOfScan⟩
  | openAction | openTag =>
    exact ⟨h.endPlain.kind_ne, h.endPlain.plain_ne, h.endPlain.isOfScan⟩
  | closeAction =>
    have hend := h.endAs .action .emptyAction (.inr rfl) fun _ => rfl
    exact ⟨hend.kind_ne, hend.plain_ne, hend.isOfScan⟩
  | closeTag =>
    have hend := h.endAs .tag .emptyTag (.inl rfl) fun _ => rfl
    exact ⟨hend.kind_ne, hend.plain_ne, hend.isOfScan⟩

theorem Plausible.read (h : s.Plausible) (t : Text) : (t.foldl Scanner.step s).Plausible := by
  induction t generalizing s with
  | nil => exact h
  | cons c t ih => exact ih (h.step c)

theorem plausible_start : Plausible {} := ⟨by simp, by simp, by simp⟩

end Scanner

theorem kind_ne_of_mem_scan {rule : Text} {s : Section} (h : s ∈ (scan rule).sections) :
    s.kind ≠ .unparsed :=
  (Scanner.plausible_start.read rule).endPlain.kind_ne s (List.mem_reverse.1 h)

theorem plain_ne_of_mem_scan {rule : Text} {s : Section} (h : s ∈ (scan rule).sections)
    (hkind : s.kind = .plain) : s.raw ≠ [] :=
  (Scanner.plausible_start.read rule).endPlain.plain_ne s (List.mem_reverse.1 h) hkind

theorem isOfScan_of_mem_scan {rule : Text} {d : Diagnostic} (h : d ∈ (scan rule).problems) :
    d.isOfScan = true := by
  rcases List.mem_append.1 h with h | h
  · exact (Scanner.plausible_start.read rule).isOfScan d (List.mem_reverse.1 h)
  · simp only [Scanner.unfinished, List.mem_append] at h
    rcases h with (h | h) | h <;> split_ifs at h <;> simp_all [Diagnostic.isOfScan]

theorem length_raw_add_two_le {rule : Text} {s : Section} (h : s ∈ (scan rule).sections)
    (hkind : s.kind ≠ .plain) : s.raw.length + 2 ≤ rule.length := by
  have hle := length_source_le h
  have hne := kind_ne_of_mem_scan h
  obtain ⟨kind, raw⟩ := s
  cases kind with
  | unparsed => exact absurd rfl hne
  | plain => exact absurd rfl hkind
  | tag | action =>
    simp only [Section.source, List.length_append, List.length_cons, List.length_nil] at hle
    omega

end TextGrammar
