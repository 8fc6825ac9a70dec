import TextGrammar.Proofs.Markup.Closed
import TextGrammar.Proofs.Markup.Reports

/-!
# What a scan loses

Written one after the other with their delimiters, the sections of a rule are the rule again, unless
its last tag or action is not finished. Then one character is missing, the mark that opened it, and
what follows this mark is plain text (`scan_lossless`). Which of the two it is can be told from the
reports, since a tag and brackets that are left open are reported.
-/

namespace TextGrammar

theorem mem_problems_scan {rule : Text} {d : Diagnostic} (htag : ∀ n, d ≠ .emptyTag n)
    (haction : ∀ n, d ≠ .emptyAction n) :
    d ∈ (scan rule).problems ↔ d ∈ Scanner.unfinished (Nesting.after {} rule) := by
  have hreports : d ∉ Section.emptyReports 0 (scan rule).sections := by
    intro h
    obtain ⟨n, h | h⟩ := Section.of_mem_emptyReports h
    · exact htag n h
    · exact haction n h
  rw [problems_scan_eq, List.mem_append, or_iff_right hreports]

theorem unclosedTag_mem_scan {rule : Text} :
    .unclosedTag ∈ (scan rule).problems ↔ (Nesting.after {} rule).inTag = true := by
  rw [mem_problems_scan (by simp) (by simp)]
  cases h : (Nesting.after {} rule).inTag <;> simp [Scanner.unfinished, h]

theorem tooManyOpen_mem_scan {rule : Text} :
    .tooManyOpen ∈ (scan rule).problems ↔ 0 < (Nesting.after {} rule).depth := by
  rw [mem_problems_scan (by simp) (by simp)]
  by_cases h : 0 < (Nesting.after {} rule).depth <;> simp [Scanner.unfinished, h]

theorem tooManyClose_mem_scan {rule : Text} :
    .tooManyClose ∈ (scan rule).problems ↔ (Nesting.after {} rule).depth < 0 := by
  rw [mem_problems_scan (by simp) (by simp)]
  by_cases h : (Nesting.after {} rule).depth < 0 <;> simp [Scanner.unfinished, h]

theorem Scanner.unfinished_eq (n : Nesting) :
    ∃ tag brackets, unfinished n = tag ++ brackets ∧ (tag = [] ∨ tag = [.unclosedTag]) ∧
      (brackets = [] ∨ brackets = [.tooManyOpen] ∨ brackets = [.tooManyClose]) := by
  refine ⟨_, _, List.append_assoc _ _ _, ?_, ?_⟩
  · cases n.inTag <;> simp
  · rcases Int.lt_trichotomy n.depth 0 with h | h | h
    · simp [h, Int.not_lt.2 (Int.le_of_lt h)]
    · simp [h]
    · simp [h, Int.not_lt.2 (Int.le_of_lt h)]

/-- The text of a rule stands in the sources of its sections up to an opening mark, if there is
one, and in what is pending behind it. -/
theorem exists_scan_eq (rule : Text) :
    ∃ (done : List Section) (pending : Text),
      (scan rule).sections = done ++ Section.ofPlain pending ∧ (∀ x ∈ done, x.Closed) ∧
      rule = done.flatMap Section.source ++ (Nesting.after {} rule).opening ++ pending ∧
      ∃ kind : SectionKind, kind.place.opening = (Nesting.after {} rule).opening ∧
        kind.place.Undelimited pending := by
  let s := rule.foldl Scanner.step {}
  have hnesting : s.nesting = Nesting.after {} rule := Scanner.nesting_read {} rule
  have hread : s.Enclosing := Scanner.enclosing_start.read rule
  obtain ⟨kind, hund, hafter⟩ := hread.pending
  refine ⟨s.sections.reverse, s.pending.reverse, s.sections_finish, ?_, ?_, kind, ?_, hund⟩
  · exact fun x hx => hread.closed x (List.mem_reverse.1 hx)
  · rw [← hnesting]
    exact (Scanner.text_read {} rule).symm
  · rw [← hnesting, ← hafter, hund.opening_after]

namespace Nesting

variable {n : Nesting}

theorem opening_of_inTag (h : n.inTag = true) : n.opening = ['#'] := by
  rw [opening, if_pos h]

theorem opening_of_depth_pos (htag : n.inTag = false) (h : 0 < n.depth) : n.opening = ['['] := by
  rw [opening, htag, if_neg Bool.false_ne_true, if_pos h]

theorem opening_eq_nil_iff : n.opening = [] ↔ ¬n.inTag = true ∧ ¬0 < n.depth := by
  unfold opening
  split_ifs with htag hdepth
  · simp [htag]
  · simp [hdepth]
  · exact iff_of_true rfl ⟨htag, hdepth⟩

end Nesting

theorem sources_prefix_of_scan {rule : Text} {before after : List Section} {x : Section}
    (h : (scan rule).sections = before ++ x :: after) (hx : x.kind ≠ .plain) :
    before.flatMap Section.source ++ x.source <+: rule := by
  obtain ⟨done, pending, hsections, -, hrule, -⟩ := exists_scan_eq rule
  have hlast : x ∉ Section.ofPlain pending := fun hmem => hx (Section.kind_of_mem_ofPlain hmem)
  have hdone : before ++ [x] <+: done := by
    rw [hsections] at h
    rcases List.append_eq_append_iff.1 h with ⟨more, -, hmore⟩ | ⟨more, hmore, hrest⟩
    · rw [hmore] at hlast
      simp at hlast
    · cases more with
      | nil =>
        rw [List.nil_append] at hrest
        rw [← hrest] at hlast
        simp at hlast
      | cons y more =>
        obtain ⟨rfl, -⟩ : x = y ∧ _ := List.cons.inj hrest
        exact ⟨more, by rw [hmore, List.append_assoc, List.singleton_append]⟩
  obtain ⟨more, rfl⟩ := hdone
  rw [hrule]
  exact ⟨_, by simp only [List.flatMap_append, List.flatMap_singleton, List.append_assoc]; rfl⟩

/-- The mark that opens the last section is all that the sources may be short of. -/
theorem sources_eq_iff {rule : Text} :
    (scan rule).sections.flatMap Section.source = rule ↔ (Nesting.after {} rule).opening = [] := by
  obtain ⟨done, pending, hsections, -, hrule, -⟩ := exists_scan_eq rule
  have hsources : (scan rule).sections.flatMap Section.source =
      done.flatMap Section.source ++ pending := by
    rw [hsections, List.flatMap_append, Section.flatMap_source_ofPlain]
  rw [hsources]
  constructor
  · intro h
    have hlength := congrArg List.length (h.trans hrule)
    simp only [List.length_append] at hlength
    exact List.length_eq_zero_iff.1 (by omega)
  · intro h
    rw [hrule, h, List.append_nil]

/-- If a mark is missing, it stands where nothing is open, and nothing behind it closes what it
opens. -/
theorem exists_sources_eq {rule : Text} {kind : SectionKind} {opener : Char}
    (h : (Nesting.after {} rule).opening = [opener]) (hkind : kind.place.opening = [opener]) :
    ∃ before after, rule = before ++ opener :: after ∧
      (scan rule).sections.flatMap Section.source = before ++ after ∧
      Nesting.after {} before = {} ∧ kind.place.Undelimited after := by
  obtain ⟨done, pending, hsections, hclosed, hrule, kind', hkind', hund⟩ := exists_scan_eq rule
  refine ⟨done.flatMap Section.source, pending, ?_, ?_, Section.after_flatMap_source hclosed, ?_⟩
  · rw [h, List.append_assoc, List.singleton_append] at hrule
    exact hrule
  · rw [hsections, List.flatMap_append, Section.flatMap_source_ofPlain]
  · rwa [SectionKind.place_eq_of_opening (hkind.trans (h.symm.trans hkind'.symm))]

/-- **A scan loses at most one delimiter.**  The sources of the sections make up the rule exactly
when neither a tag nor a bracket is left open. Otherwise they make up the rule without one
character, the mark that opens a tag or an action which nothing behind it closes.

Reported are the empty tags and actions, in order and with the offset behind their opening delimiter
(the sources of the sections up to a tag or an action are where the rule begins), and after them at
most one open tag and one kind of unbalanced brackets. -/
theorem scan_lossless (rule : Text) :
    let scanned := scan rule
    let sources := scanned.sections.flatMap Section.source
    (sources = rule ↔ .unclosedTag ∉ scanned.problems ∧ .tooManyOpen ∉ scanned.problems) ∧
      (.unclosedTag ∈ scanned.problems ∨ .tooManyOpen ∈ scanned.problems →
        ∃ before opener after, rule = before ++ opener :: after ∧ sources = before ++ after ∧
          (if .unclosedTag ∈ scanned.problems then
            opener = '#' ∧ (Nesting.after {} before).mark opener = .openTag
          else opener = '[' ∧ (Nesting.after {} before).mark opener = .openAction) ∧
          ((Nesting.after {} before).advance opener).Undelimited after) ∧
      (∃ tag brackets,
        scanned.problems = Section.emptyReports 0 scanned.sections ++ (tag ++ brackets) ∧
          (tag = [] ∨ tag = [.unclosedTag]) ∧
          (brackets = [] ∨ brackets = [.tooManyOpen] ∨ brackets = [.tooManyClose])) ∧
      ∀ before x after, scanned.sections = before ++ x :: after → x.kind ≠ .plain →
        before.flatMap Section.source ++ x.source <+: rule := by
  intro scanned sources
  refine ⟨?_, fun h => ?_, ?_, fun before x after h hx => sources_prefix_of_scan h hx⟩
  · rw [unclosedTag_mem_scan, tooManyOpen_mem_scan, ← Nesting.opening_eq_nil_iff]
    exact sources_eq_iff
  · rw [unclosedTag_mem_scan, tooManyOpen_mem_scan] at h
    simp only [scanned, unclosedTag_mem_scan]
    by_cases htag : (Nesting.after {} rule).inTag = true
    · have hopening := Nesting.opening_of_inTag htag
      obtain ⟨before, after, hrule, hsources, hbefore, hund⟩ :=
        exists_sources_eq hopening (show SectionKind.tag.place.opening = _ from rfl)
      refine ⟨before, '#', after, hrule, hsources, ?_, ?_⟩
      · rw [if_pos htag, hbefore]
        exact ⟨rfl, rfl⟩
      · rw [hbefore]
        exact hund
    · have hopening := Nesting.opening_of_depth_pos (Bool.eq_false_iff.2 htag) (h.resolve_left htag)
      obtain ⟨before, after, hrule, hsources, hbefore, hund⟩ :=
        exists_sources_eq hopening (show SectionKind.action.place.opening = _ from rfl)
      refine ⟨before, '[', after, hrule, hsources, ?_, ?_⟩
      · rw [if_neg htag, hbefore]
        exact ⟨rfl, rfl⟩
      · rw [hbefore]
        exact hund
  · obtain ⟨tag, brackets, h, htag, hbrackets⟩ := Scanner.unfinished_eq (Nesting.after {} rule)
    exact ⟨tag, brackets, (problems_scan_eq rule).trans (by rw [h]), htag, hbrackets⟩

-- A tag left open in which a bracket is left open, behind a character of two bytes.
example : scan "é##[]#a[b".toList =
    ⟨[⟨.plain, "é".toList⟩, ⟨.tag, []⟩, ⟨.action, []⟩, ⟨.plain, "a[b".toList⟩],
      [.emptyTag 3, .emptyAction 5, .unclosedTag, .tooManyOpen]⟩ := by decide +kernel

end TextGrammar
