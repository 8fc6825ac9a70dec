import TextGrammar.Proofs.Markup.Balanced
import TextGrammar.Proofs.Markup.Lossless

/-!
# Scanning the text of a section again

The text of a tag is scanned again when the tag is taken apart, and that of an action when it is
expanded or linted. The second scan starts outside of the delimiters that the first one has met, and
in the first one the depth may have been below zero. All the same the text of a section is closed on
its own, so the second scan of a tag loses nothing, leaves nothing open and meets no other tag, and
that of an action finds its brackets in balance (`scan_inside`).
-/

namespace TextGrammar

namespace Section

variable {raw : Text}

theorem exists_emptyAction_of_mem {offset : Nat} {xs : List Section} {d : Diagnostic}
    (hxs : ∀ x ∈ xs, x.kind ≠ .tag) (h : d ∈ emptyReports offset xs) :
    ∃ n, d = .emptyAction n := by
  induction xs generalizing offset with
  | nil => cases h
  | cons x xs ih =>
    obtain ⟨hx, hxs⟩ := List.forall_mem_cons.1 hxs
    rcases List.mem_append.1 h with h | h
    · unfold emptyReport at h
      split at h
      · rename_i hkind _
        exact absurd hkind hx
      · exact ⟨_, List.mem_singleton.1 h⟩
      · cases h
    · exact ih hxs h

namespace Closed

theorem kind_of_mem_scan (h : Closed ⟨.tag, raw⟩) {x : Section} (hx : x ∈ (scan raw).sections) :
    x.kind = .plain ∨ x.kind = .action := by
  have htag := h.kind_ne_tag hx
  have hunparsed := kind_ne_of_mem_scan hx
  cases hk : x.kind <;> simp_all

/-- In the text of a tag nothing but an empty action is reported. -/
theorem exists_emptyAction (h : Closed ⟨.tag, raw⟩) {d : Diagnostic}
    (hd : d ∈ (scan raw).problems) : ∃ n, d = .emptyAction n := by
  have hopen : Scanner.unfinished {} = [] := rfl
  rw [problems_scan_eq, h.after_raw, hopen, List.append_nil] at hd
  exact exists_emptyAction_of_mem (fun _ => h.kind_ne_tag) hd

theorem flatMap_source (h : Closed ⟨.tag, raw⟩) :
    (scan raw).sections.flatMap Section.source = raw := by
  rw [sources_eq_iff, h.after_raw]
  rfl

end Closed

end Section

/-- **The text of a section has no surprises when it is scanned again.**  In that of a tag are plain
text and actions only, nothing is reported but empty actions, and the sources of its sections make
up the text; so all that runs before the clause of the tag are actions. In that of an action the
brackets are balanced. -/
theorem scan_inside {rule : Text} {x : Section} (h : x ∈ (scan rule).sections) :
    (x.kind = .tag →
      (∀ y ∈ (scan x.raw).sections, y.kind = .plain ∨ y.kind = .action) ∧
        (∀ d ∈ (scan x.raw).problems, ∃ n, d = .emptyAction n) ∧
        (scan x.raw).sections.flatMap Section.source = x.raw ∧
        ∀ clause, Tag.read x.raw = .clause clause → ∀ p ∈ clause.preactions, p.kind = .action) ∧
      (x.kind = .action →
        .tooManyOpen ∉ (scan x.raw).problems ∧ .tooManyClose ∉ (scan x.raw).problems) := by
  obtain ⟨kind, raw⟩ := x
  refine ⟨?_, ?_⟩
  · rintro rfl
    have hclosed : Section.Closed ⟨.tag, raw⟩ := closed_of_mem_scan h (by simp)
    exact ⟨fun y => hclosed.kind_of_mem_scan, fun d => hclosed.exists_emptyAction,
      hclosed.flatMap_source, fun clause hread p => hclosed.preaction hread⟩
  · rintro rfl
    have hclosed : Section.Closed ⟨.action, raw⟩ := closed_of_mem_scan h (by simp)
    obtain ⟨-, hdepth, -⟩ := Section.closed_action_iff.1 hclosed
    rw [tooManyOpen_mem_scan, tooManyClose_mem_scan, hdepth]
    exact ⟨Int.lt_irrefl 0, Int.lt_irrefl 0⟩

/-- A tag that is opened and closed at depth zero after a bracket too many, with the same inside, and
an action in which a tag is left open. -/
theorem scan_inside_negative :
    let rule : Text := "]x[#a]b#c[d[e][]#y[#q]".toList
    let tag : Section := ⟨.tag, "a]b#c[d[e][]".toList⟩
    let action : Section := ⟨.action, "#q".toList⟩
    tag ∈ (scan rule).sections ∧ action ∈ (scan rule).sections ∧
      scan tag.raw =
        ⟨[⟨.plain, "a]b#c[d".toList⟩, ⟨.action, ['e']⟩, ⟨.action, []⟩], [.emptyAction 11]⟩ ∧
      (scan tag.raw).sections.flatMap Section.source = tag.raw ∧
      (scan action.raw).problems = [.unclosedTag] ∧ .tooManyOpen ∉ (scan action.raw).problems := by
  intro rule tag action
  have htag : tag ∈ (scan rule).sections := by decide +kernel
  have haction : action ∈ (scan rule).sections := by decide +kernel
  obtain ⟨-, -, hsources, -⟩ := (scan_inside htag).1 rfl
  obtain ⟨hopen, -⟩ := (scan_inside haction).2 rfl
  exact ⟨htag, haction, by decide +kernel, hsources, by decide +kernel, hopen⟩

end TextGrammar
