import TextGrammar.Proofs.Markup.Append

/-!
# What a scan reports

A scan reports two kinds of things: tags and actions that are empty, and what the rule has left open
at its end. The first can be told from the sections alone (`Section.emptyReports`): since the
sources of the sections make up the text read so far, the offset of a report is where the text of
its section begins. So the reports of a scan are those for its sections, in order, followed by what
is unfinished (`problems_scan_eq`).
-/

namespace TextGrammar

namespace Section

/-- What is reported of a section whose text begins at an offset. -/
def emptyReport (x : Section) (offset : Nat) : List Diagnostic :=
  match x.kind, x.raw with
  | .tag, [] => [.emptyTag offset]
  | .action, [] => [.emptyAction offset]
  | _, _ => []

/-- What is reported of sections that are written one after the other, the first of them at an
offset. The text of a tag or an action begins behind its opening delimiter. -/
def emptyReports : Nat → List Section → List Diagnostic
  | _, [] => []
  | offset, x :: xs =>
    x.emptyReport (offset + 1) ++ emptyReports (offset + x.source.byteLength) xs

theorem emptyReports_append (offset : Nat) (xs ys : List Section) :
    emptyReports offset (xs ++ ys) =
      emptyReports offset xs ++
        emptyReports (offset + Text.byteLength (xs.flatMap source)) ys := by
  induction xs generalizing offset with
  | nil => rfl
  | cons x xs ih =>
    simp only [List.cons_append, emptyReports, ih, List.flatMap_cons, Text.byteLength_append,
      List.append_assoc, Nat.add_assoc]

theorem emptyReport_eq_nil {x : Section} (h : x.kind = .plain ∨ x.raw ≠ []) (offset : Nat) :
    x.emptyReport offset = [] := by
  obtain ⟨kind, raw⟩ := x
  cases kind <;> cases raw <;> simp_all [emptyReport]

theorem emptyReports_eq_nil {xs : List Section} (h : ∀ x ∈ xs, x.kind = .plain ∨ x.raw ≠ [])
    (offset : Nat) : emptyReports offset xs = [] := by
  induction xs generalizing offset with
  | nil => rfl
  | cons x xs ih =>
    obtain ⟨hx, hxs⟩ := List.forall_mem_cons.1 h
    rw [emptyReports, emptyReport_eq_nil hx, ih hxs, List.nil_append]

@[simp] theorem emptyReports_ofPlain (offset : Nat) (t : Text) :
    emptyReports offset (ofPlain t) = [] :=
  emptyReports_eq_nil (fun _ hx => .inl (kind_of_mem_ofPlain hx)) offset

theorem of_mem_emptyReports {offset : Nat} {xs : List Section} {d : Diagnostic}
    (h : d ∈ emptyReports offset xs) : ∃ n, d = .emptyTag n ∨ d = .emptyAction n := by
  induction xs generalizing offset with
  | nil => cases h
  | cons x xs ih =>
    rcases List.mem_append.1 h with h | h
    · unfold emptyReport at h
      split at h
      · exact ⟨_, .inl (List.mem_singleton.1 h)⟩
      · exact ⟨_, .inr (List.mem_singleton.1 h)⟩
      · cases h
    · exact ih h

end Section

namespace Scanner

/-- The offset of a scanner is the length of the text it has read, and its reports are those for its
sections. -/
structure Exact (s : Scanner) : Prop where
  offset : s.offset = s.text.byteLength
  reports : s.problems.reverse = Section.emptyReports 0 s.sections.reverse

variable {s : Scanner}

theorem Exact.reports_endPlain (h : s.Exact) :
    s.endPlain.problems.reverse = Section.emptyReports 0 s.endPlain.sections.reverse := by
  rw [problems_endPlain, endPlain_eq, List.reverse_append, Section.reverse_ofPlain,
    Section.emptyReports_append, Section.emptyReports_ofPlain, List.append_nil, h.reports]

/-- A section that ends where its text begins is reported at this place. -/
theorem Exact.reports_endAs (h : s.Exact) {kind : SectionKind} {empty : Nat → Diagnostic}
    (hempty : ∀ n, Section.emptyReport ⟨kind, []⟩ n = [empty n])
    (hopening : s.nesting.opening.byteLength = 1) :
    (s.endAs kind empty).problems.reverse =
      Section.emptyReports 0 (s.endAs kind empty).sections.reverse := by
  have hsections : (s.endAs kind empty).sections.reverse =
      s.sections.reverse ++ [⟨kind, s.pending.reverse⟩] := by simp [endAs]
  rw [hsections, Section.emptyReports_append, ← h.reports]
  simp only [Section.emptyReports, List.append_nil]
  cases hpending : s.pending with
  | nil =>
    have hplace : s.offset =
        0 + Text.byteLength (s.sections.reverse.flatMap Section.source) + 1 := by
      rw [h.offset, text, hpending]
      simp [hopening]
    simp [endAs, hpending, hempty, hplace]
  | cons c pending =>
    rw [Section.emptyReport_eq_nil (.inr (by simp))]
    simp [endAs, hpending]

theorem Exact.step (h : s.Exact) (c : Char) : (s.step c).Exact := by
  refine ⟨?_, ?_⟩
  · rw [offset_step, text_step, Text.byteLength_append, h.offset]
    simp
  · have spec := s.nesting.mark_spec c
    unfold Scanner.step
    cases hm : s.nesting.mark c <;> rw [hm] at spec <;> simp only at spec ⊢
    case text => exact h.reports
    case openAction | openTag => exact h.reports_endPlain
    case closeAction =>
      obtain ⟨-, hn, -⟩ := spec
      exact h.reports_endAs (fun _ => rfl) (by rw [hn]; rfl)
    case closeTag =>
      obtain ⟨-, hn, -⟩ := spec
      exact h.reports_endAs (fun _ => rfl) (by rw [hn]; rfl)

theorem Exact.read (h : s.Exact) (t : Text) : (t.foldl Scanner.step s).Exact := by
  induction t generalizing s with
  | nil => exact h
  | cons c t ih => exact ih (h.step c)

theorem exact_start : Exact {} := ⟨rfl, rfl⟩

end Scanner

/-- **The reports of a scan** are those for its empty tags and actions, in order, and then what the
rule has left open. -/
theorem problems_scan_eq (rule : Text) :
    (scan rule).problems =
      Section.emptyReports 0 (scan rule).sections ++
        Scanner.unfinished (Nesting.after {} rule) := by
  have hexact := Scanner.exact_start.read rule
  have hsections : (scan rule).sections =
      (rule.foldl Scanner.step {}).endPlain.sections.reverse := rfl
  rw [problems_scan, hsections, ← hexact.reports_endPlain, Scanner.problems_endPlain]

end TextGrammar
