import TextGrammar.Proofs.Markup.Sections

/-!
# Scanning one text after another

A text after which no tag, no bracket and no escape mark is open leaves the place at which a scan
starts. A scan of more text then goes on as it would from its start, with two differences: offsets
count from the start of the whole, and the plain text that was pending is taken into the first
section of what follows, if that is plain as well (`scan_append`).

The two differences are kept apart. `Scanner.onTop` puts what was read before under a scanner, which
commutes with every step. `Carried` says what pending text turns into: it stays pending up to the
first delimiter and has its place in the first section from then on.
-/

namespace TextGrammar

/-- A diagnostic whose offset, if it has one, counts from `n` bytes earlier. -/
def Diagnostic.shift (n : Nat) : Diagnostic → Diagnostic
  | emptyTag offset => emptyTag (n + offset)
  | emptyAction offset => emptyAction (n + offset)
  | d => d

/-- The section for a stretch of plain text; an empty one has none. -/
def Section.ofPlain (t : Text) : List Section := if t.isEmpty then [] else [⟨.plain, t⟩]

@[simp] theorem Section.reverse_ofPlain (t : Text) : (ofPlain t).reverse = ofPlain t := by
  unfold ofPlain
  split_ifs <;> rfl

@[simp] theorem Section.flatMap_source_ofPlain (t : Text) : (ofPlain t).flatMap source = t := by
  unfold ofPlain
  split_ifs with h
  · rw [List.isEmpty_iff.1 h]
    rfl
  · exact List.append_nil t

theorem Section.mem_ofPlain {t : Text} {x : Section} :
    x ∈ ofPlain t ↔ x = ⟨.plain, t⟩ ∧ t ≠ [] := by
  cases t <;> simp [ofPlain]

theorem Section.kind_of_mem_ofPlain {t : Text} {x : Section} (h : x ∈ ofPlain t) :
    x.kind = .plain := by
  rw [(mem_ofPlain.1 h).1]

/-! ### The place after a text -/

namespace Nesting

theorem escaped_advance (n : Nesting) (c : Char) :
    (n.advance c).escaped = (!n.escaped && c == Escape.mark) := by
  unfold advance Escape.mark
  split_ifs <;> simp_all

theorem escaped_after (n : Nesting) (t : Text) :
    (n.after t).escaped = t.foldl (fun escaped c => !escaped && c == Escape.mark) n.escaped := by
  induction t generalizing n with
  | nil => rfl
  | cons c t ih => rw [after_cons, ih, escaped_advance, List.foldl_cons]

end Nesting

namespace Scanner

@[simp] theorem nesting_step (s : Scanner) (c : Char) :
    (s.step c).nesting = s.nesting.advance c := by
  unfold step
  cases s.nesting.mark c <;> simp [keep, skip, endAs]

theorem nesting_read (s : Scanner) (t : Text) :
    (t.foldl step s).nesting = s.nesting.after t := by
  induction t generalizing s with
  | nil => rfl
  | cons c t ih => rw [List.foldl_cons, ih, nesting_step, Nesting.after_cons]

@[simp] theorem offset_endPlain (s : Scanner) : s.endPlain.offset = s.offset := by
  unfold endPlain
  split_ifs <;> rfl

@[simp] theorem offset_step (s : Scanner) (c : Char) :
    (s.step c).offset = s.offset + c.utf8Size := by
  unfold step
  cases s.nesting.mark c <;> simp [keep, skip, endAs]

theorem offset_read (s : Scanner) (t : Text) :
    (t.foldl step s).offset = s.offset + t.byteLength := by
  induction t generalizing s with
  | nil => rfl
  | cons c t ih =>
    rw [List.foldl_cons, ih, offset_step]
    simp [Text.byteLength, Nat.add_assoc]

end Scanner

theorem problems_scan (t : Text) :
    (scan t).problems =
      (t.foldl Scanner.step {}).problems.reverse ++ Scanner.unfinished (Nesting.after {} t) := by
  rw [← Scanner.nesting_read {} t]
  rfl

theorem Nesting.eq_start {n : Nesting} (htag : .unclosedTag ∉ Scanner.unfinished n)
    (hopen : .tooManyOpen ∉ Scanner.unfinished n) (hclose : .tooManyClose ∉ Scanner.unfinished n)
    (hescaped : n.escaped = false) : n = {} := by
  obtain ⟨depth, inTag, escaped⟩ := n
  have hin : inTag = false := by
    cases inTag with
    | true => simp [Scanner.unfinished] at htag
    | false => rfl
  have hpos : ¬0 < depth := fun h => hopen (by simp [Scanner.unfinished, h])
  have hneg : ¬depth < 0 := fun h => hclose (by simp [Scanner.unfinished, h])
  obtain rfl : depth = 0 := by omega
  rw [hin, show escaped = false from hescaped]

theorem Nesting.after_eq_start {t : Text} (htag : .unclosedTag ∉ (scan t).problems)
    (hopen : .tooManyOpen ∉ (scan t).problems) (hclose : .tooManyClose ∉ (scan t).problems)
    (hescape : Escape.isOpen t = false) : Nesting.after {} t = {} := by
  rw [problems_scan, List.mem_append, not_or] at htag hopen hclose
  exact eq_start htag.2 hopen.2 hclose.2 ((escaped_after {} t).trans hescape)

/-! ### What was read before -/

namespace Scanner

/-- A scanner above one that has read the text before. The text that this had pending is left
out. -/
def onTop (s past : Scanner) : Scanner :=
  { s with
    offset := past.offset + s.offset
    sections := s.sections ++ past.sections
    problems := s.problems.map (.shift past.offset) ++ past.problems }

theorem onTop_endPlain (s past : Scanner) : (s.onTop past).endPlain = s.endPlain.onTop past := by
  unfold endPlain onTop
  split_ifs <;> rfl

theorem onTop_step (s past : Scanner) (c : Char) :
    (s.onTop past).step c = (s.step c).onTop past := by
  have hskip : ∀ s : Scanner, (s.onTop past).skip c = (s.skip c).onTop past := fun s => by
    simp only [skip, onTop, Nat.add_assoc]
  unfold step
  rw [show (s.onTop past).nesting = s.nesting from rfl]
  cases s.nesting.mark c with
  | text => simp only [keep, hskip]; rfl
  | openAction | openTag => simp only [onTop_endPlain, hskip]
  | closeAction | closeTag =>
    simp only [← hskip]
    congr 1
    simp only [endAs, onTop]
    split_ifs <;> simp_all [Diagnostic.shift]

theorem onTop_read (s past : Scanner) (t : Text) :
    t.foldl step (s.onTop past) = (t.foldl step s).onTop past := by
  induction t generalizing s with
  | nil => rfl
  | cons c t ih => rw [List.foldl_cons, List.foldl_cons, onTop_step, ih]

/-! ### Pending text -/

/-- `s'` has read what `s` has, with `carry` pending at the start. -/
inductive Carried (carry : Text) (s s' : Scanner) : Prop
  | pending (hopening : s.nesting.opening = []) (hsections : s.sections = [])
      (h : s' = { s with pending := s.pending ++ carry })
  | ended (first : Text) (later : List Section)
      (hsections : s.sections = later ++ Section.ofPlain first)
      (h : s' = { s with sections := later ++ Section.ofPlain (carry.reverse ++ first) })

theorem endPlain_eq (s : Scanner) :
    s.endPlain =
      { s with pending := [], sections := Section.ofPlain s.pending.reverse ++ s.sections } := by
  obtain ⟨nesting, offset, pending, sections, problems⟩ := s
  cases pending <;> simp [endPlain, Section.ofPlain]

theorem sections_finish (s : Scanner) :
    s.finish.sections = s.sections.reverse ++ Section.ofPlain s.pending.reverse := by
  rw [finish, endPlain_eq, List.reverse_append, Section.reverse_ofPlain]

theorem sections_finish_onTop (s past : Scanner) :
    (s.onTop past).finish.sections = past.sections.reverse ++ s.finish.sections := by
  simp [sections_finish, onTop]

theorem problems_finish_onTop (s past : Scanner) :
    (s.onTop past).finish.problems =
      past.problems.reverse ++ s.finish.problems.map (.shift past.offset) := by
  have hunfinished : (unfinished s.nesting).map (.shift past.offset) = unfinished s.nesting := by
    unfold unfinished
    split_ifs <;> rfl
  simp [finish, onTop, hunfinished]

theorem Carried.step {carry : Text} {s s' : Scanner} (h : Carried carry s s') (c : Char) :
    Carried carry (s.step c) (s'.step c) := by
  have spec := s.nesting.mark_spec c
  cases h with
  | pending hopening hsections h =>
    subst h
    unfold Scanner.step
    cases hm : s.nesting.mark c <;> rw [hm] at spec <;> simp only at spec ⊢
    case text => exact .pending (spec.trans hopening) hsections rfl
    case openAction | openTag =>
      -- the first delimiter ends the pending text
      refine .ended s.pending.reverse [] ?_ ?_ <;> simp [endPlain_eq, skip, hsections]
    case closeAction | closeTag =>
      -- nothing was opened yet
      simp [spec, Nesting.opening] at hopening
  | ended first later hsections h =>
    subst h
    unfold Scanner.step
    cases hm : s.nesting.mark c <;> simp only
    case text => exact .ended first later hsections rfl
    case openAction | openTag =>
      refine .ended first (Section.ofPlain s.pending.reverse ++ later) ?_ ?_ <;>
        simp [endPlain_eq, skip, hsections]
    case closeAction =>
      refine .ended first (⟨.action, s.pending.reverse⟩ :: later) ?_ ?_ <;>
        simp [endAs, skip, hsections]
    case closeTag =>
      refine .ended first (⟨.tag, s.pending.reverse⟩ :: later) ?_ ?_ <;>
        simp [endAs, skip, hsections]

theorem Carried.read {carry : Text} {s s' : Scanner} (h : Carried carry s s') (t : Text) :
    Carried carry (t.foldl Scanner.step s) (t.foldl Scanner.step s') := by
  induction t generalizing s s' with
  | nil => exact h
  | cons c t ih => exact ih (h.step c)

/-- In the end the pending text stands before the first plain text. -/
theorem Carried.finish {carry : Text} {s s' : Scanner} (h : Carried carry s s') :
    ∃ first later, s.finish.sections = Section.ofPlain first ++ later ∧
      s'.finish.sections = Section.ofPlain (carry.reverse ++ first) ++ later ∧
      s'.finish.problems = s.finish.problems := by
  cases h with
  | pending hopening hsections h =>
    subst h
    exact ⟨s.pending.reverse, [], by simp [sections_finish, hsections],
      by simp [sections_finish, hsections], rfl⟩
  | ended first later hsections h =>
    subst h
    exact ⟨first, later.reverse ++ Section.ofPlain s.pending.reverse,
      by simp [sections_finish, hsections], by simp [sections_finish], rfl⟩

end Scanner

/-- **The scan of two texts one after the other**, if the first leaves nothing open: the sections
of both in order, with the plain text at the border in one section, and the problems of both. -/
theorem scan_append {a : Text} (h : Nesting.after {} a = {}) (b : Text) :
    ∃ before last first later,
      (scan a).sections = before ++ Section.ofPlain last ∧
      (scan b).sections = Section.ofPlain first ++ later ∧
      (scan (a ++ b)).sections = before ++ Section.ofPlain (last ++ first) ++ later ∧
      (scan (a ++ b)).problems =
        (scan a).problems ++ (scan b).problems.map (.shift a.byteLength) := by
  let past := a.foldl Scanner.step {}
  have hnesting : past.nesting = {} := (Scanner.nesting_read {} a).trans h
  have hoffset : past.offset = a.byteLength := by simpa using Scanner.offset_read {} a
  -- the scan of `b` goes on above what was read, with the pending text carried over
  have hpast : past = Scanner.onTop { pending := past.pending } past := by
    simp [Scanner.onTop, ← hnesting]
  have hab : scan (a ++ b) =
      ((b.foldl Scanner.step { pending := past.pending }).onTop past).finish := by
    rw [← Scanner.onTop_read, ← hpast, scan, List.foldl_append]
  have hcarried : Scanner.Carried past.pending {} { pending := past.pending } :=
    .pending rfl rfl rfl
  obtain ⟨first, later, hb, hb', hproblems⟩ := (hcarried.read b).finish
  refine ⟨past.sections.reverse, past.pending.reverse, first, later,
    past.sections_finish, hb, ?_, ?_⟩
  · rw [hab, Scanner.sections_finish_onTop, hb', List.append_assoc]
  · have ha : (scan a).problems = past.problems.reverse := by
      rw [problems_scan, h]
      exact List.append_nil _
    rw [hab, Scanner.problems_finish_onTop, hproblems, ha, hoffset]
    rfl

end TextGrammar
