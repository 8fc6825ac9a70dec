import TextGrammar.Proofs.Markup.Literal
import TextGrammar.Proofs.Markup.Reports

/-!
# Alternatives and the scan

The split into alternatives and the scan for sections both follow the place in the rule, so a text
is cut only where the scan would be back at its start: before a cut nothing is open
(`Alternatives.splitFrom_cases`). So the parts may be told apart one after the other, and each of
them is scanned as if it stood by itself (`Alternatives.split_induction`).

Two neighbouring stretches of plain text may be one section or two, according to where the text was
cut. `Section.merged` makes one of them; up to this, the sections of the text are those of its parts
with the separators between them (`Alternatives.scan_split`).
-/

namespace TextGrammar

/-! ### Neighbouring stretches of plain text -/

namespace Section

/-- Put a section before others. If it is plain and the first of them is as well, they are one. -/
def fuse (x : Section) : List Section → List Section
  | [] => [x]
  | y :: ys =>
    if x.kind = .plain ∧ y.kind = .plain then ⟨.plain, x.raw ++ y.raw⟩ :: ys else x :: y :: ys

/-- The sections with neighbouring plain ones made into one. -/
def merged (xs : List Section) : List Section := xs.foldr fuse []

variable {xs ys zs : List Section}

theorem merged_append (xs ys : List Section) :
    merged (xs ++ ys) = xs.foldr fuse (merged ys) :=
  List.foldr_append

/-- What is merged behind does not depend on what stands before. -/
theorem merged_append_congr (xs : List Section) (h : merged ys = merged zs) :
    merged (xs ++ ys) = merged (xs ++ zs) := by
  rw [merged_append, merged_append, h]

theorem fuse_plain_fuse (a b : Text) (xs : List Section) :
    fuse ⟨.plain, a⟩ (fuse ⟨.plain, b⟩ xs) = fuse ⟨.plain, a ++ b⟩ xs := by
  cases xs with
  | nil => rfl
  | cons x xs =>
    by_cases hx : x.kind = .plain
    · simp [fuse, hx]
    · simp [fuse, hx]

theorem merged_ofPlain_append (a b : Text) (xs : List Section) :
    merged (ofPlain (a ++ b) ++ xs) = merged (ofPlain a ++ (ofPlain b ++ xs)) := by
  cases a with
  | nil => rfl
  | cons c a =>
    cases b with
    | nil => rw [List.append_nil]; rfl
    | cons d b => exact (fuse_plain_fuse (c :: a) (d :: b) (merged xs)).symm

end Section

/-- **The sections of two texts one after the other** are those of both, if the first leaves
nothing open. -/
theorem merged_scan_append {a : Text} (h : Nesting.after {} a = {}) (b : Text) :
    Section.merged (scan (a ++ b)).sections =
      Section.merged ((scan a).sections ++ (scan b).sections) := by
  obtain ⟨before, last, first, later, ha, hb, hab, -⟩ := scan_append h b
  have hborder := Section.merged_ofPlain_append last first later
  rw [ha, hb, hab, List.append_assoc, List.append_assoc]
  exact Section.merged_append_congr before hborder

/-! ### What is left open -/

/-- The problems that say what a rule leaves open at its end. -/
def Diagnostic.isUnfinished : Diagnostic → Bool
  | unclosedTag | tooManyOpen | tooManyClose => true
  | _ => false

theorem filter_isUnfinished_scan (t : Text) :
    (scan t).problems.filter Diagnostic.isUnfinished =
      Scanner.unfinished (Nesting.after {} t) := by
  have hreports :
      (Section.emptyReports 0 (scan t).sections).filter Diagnostic.isUnfinished = [] := by
    refine List.filter_eq_nil_iff.2 fun d hd => ?_
    obtain ⟨n, rfl | rfl⟩ := Section.of_mem_emptyReports hd <;> simp [Diagnostic.isUnfinished]
  have hall : ∀ d ∈ Scanner.unfinished (Nesting.after {} t), Diagnostic.isUnfinished d = true := by
    intro d hd
    simp only [Scanner.unfinished, List.mem_append] at hd
    rcases hd with (hd | hd) | hd <;> split_ifs at hd <;> simp_all [Diagnostic.isUnfinished]
  rw [problems_scan_eq, List.filter_append, hreports, List.nil_append, List.filter_eq_self.2 hall]

/-! ### Joining -/

namespace Text

theorem join_nil_cons (sep : Text) {parts : List Text} (h : parts ≠ []) :
    join sep ([] :: parts) = sep ++ join sep parts := by
  obtain ⟨part, parts, rfl⟩ := List.exists_cons_of_ne_nil h
  rfl

theorem join_consPiece (sep : Text) (c : Char) {parts : List Text} (h : parts ≠ []) :
    join sep (consPiece c parts) = c :: join sep parts := by
  obtain ⟨part, parts, rfl⟩ := List.exists_cons_of_ne_nil h
  cases parts with
  | nil => rfl
  | cons next parts => rfl

end Text

/-! ### The first cut -/

/-- Where a text is cut the scan is at its start, and the separator does not lead away. -/
theorem Nesting.of_splitsAt {n : Nesting} {separator c : Char}
    (h : n.splitsAt separator c = true) : c = separator ∧ n = {} ∧ n.advance c = {} := by
  obtain ⟨depth, inTag, escaped⟩ := n
  simp only [splitsAt, isTop, Bool.and_eq_true, beq_iff_eq, bne_iff_ne, Bool.not_eq_true'] at h
  obtain ⟨⟨⟨⟨⟨⟨⟨hdepth, hin⟩, hescaped⟩, hc⟩, hescape⟩, hopen⟩, hclose⟩, hhash⟩ := h
  refine ⟨hc, by rw [hdepth, hin, hescaped], ?_⟩
  simp [advance, hdepth, hin, hescaped, hescape, hopen, hclose, hhash]

namespace Alternatives

variable {separator c : Char} {n : Nesting} {t first rest part : Text}

theorem splitFrom_cons_of_splitsAt (h : n.splitsAt separator c = true) :
    splitFrom separator n (c :: t) = [] :: split separator t := by
  obtain ⟨-, -, hback⟩ := Nesting.of_splitsAt h
  simp only [splitFrom, h, if_true, hback, split]

/-- **The parts joined again are the text.** -/
theorem join_splitFrom (separator : Char) (n : Nesting) (t : Text) :
    Text.join [separator] (splitFrom separator n t) = t := by
  induction t generalizing n with
  | nil => rfl
  | cons c t ih =>
    by_cases hcut : n.splitsAt separator c = true
    · obtain ⟨hc, -, -⟩ := Nesting.of_splitsAt hcut
      rw [splitFrom_cons_of_splitsAt hcut, split, Text.join_nil_cons _ (splitFrom_ne_nil _ _ _),
        ih, hc, List.singleton_append]
    · rw [splitFrom_cons_of_not_splitsAt (Bool.eq_false_iff.2 hcut),
        Text.join_consPiece _ _ (splitFrom_ne_nil _ _ _), ih]

/-- Either a text is not cut, or there is a first cut, where nothing is open. -/
theorem splitFrom_cases (separator : Char) (n : Nesting) (t : Text) :
    splitFrom separator n t = [t] ∨
      ∃ first rest, t = first ++ separator :: rest ∧ n.after first = {} ∧
        splitFrom separator n first = [first] ∧
        splitFrom separator n t = first :: split separator rest := by
  induction t generalizing n with
  | nil => exact .inl rfl
  | cons c t ih =>
    by_cases hcut : n.splitsAt separator c = true
    · obtain ⟨rfl, hn, -⟩ := Nesting.of_splitsAt hcut
      exact .inr ⟨[], t, rfl, hn, rfl, splitFrom_cons_of_splitsAt hcut⟩
    · have hkeep := fun t =>
        splitFrom_cons_of_not_splitsAt (t := t) (Bool.eq_false_iff.2 hcut)
      rcases ih (n.advance c) with hwhole | ⟨first, rest, rfl, hafter, hfirst, hparts⟩
      · exact .inl (by rw [hkeep, hwhole]; rfl)
      · exact .inr ⟨c :: first, rest, rfl, hafter, by rw [hkeep, hfirst]; rfl,
          by rw [hkeep, hparts]; rfl⟩

/-- To prove something of all texts, prove it of those that are not cut, and of a text with a first
cut from what lies behind it. -/
theorem split_induction (separator : Char) {P : Text → Prop}
    (whole : ∀ t, split separator t = [t] → P t)
    (cut : ∀ first rest, Nesting.after {} first = {} → split separator first = [first] →
      split separator (first ++ separator :: rest) = first :: split separator rest → P rest →
      P (first ++ separator :: rest)) (t : Text) : P t := by
  induction hlength : t.length using Nat.strongRecOn generalizing t with
  | ind length ih =>
    rcases splitFrom_cases separator {} t with hwhole | ⟨first, rest, rfl, hafter, hfirst, hparts⟩
    · exact whole t hwhole
    · have hshorter : rest.length < length := by
        rw [← hlength, List.length_append, List.length_cons]
        omega
      exact cut first rest hafter hfirst hparts (ih rest.length hshorter rest rfl)

/-! ### The parts -/

theorem split_of_mem_split (t : Text) :
    ∀ part ∈ split separator t, split separator part = [part] := by
  induction t using split_induction separator with
  | whole t hwhole =>
    rw [hwhole]
    exact List.forall_mem_singleton.2 hwhole
  | cut first rest _ hfirst hparts ih =>
    rw [hparts]
    exact List.forall_mem_cons.2 ⟨hfirst, ih⟩

theorem after_separator_cons (hseparator : separator ∉ ['#', '[', ']', '\\']) (t : Text) :
    Nesting.after {} (separator :: t) = Nesting.after {} t := by
  have hback : Nesting.advance {} separator = {} := (Text.neutral_singleton hseparator {} rfl).2
  rw [Nesting.after_cons, hback]

/-- All parts but the last leave nothing open, and the last leaves open what the text does. -/
theorem exists_split_eq (hseparator : separator ∉ ['#', '[', ']', '\\']) (t : Text) :
    ∃ before last, split separator t = before ++ [last] ∧
      (∀ part ∈ before, Nesting.after {} part = {}) ∧
      Nesting.after {} last = Nesting.after {} t := by
  induction t using split_induction separator with
  | whole t hwhole => exact ⟨[], t, hwhole, by simp, rfl⟩
  | cut first rest hafter _ hparts ih =>
    obtain ⟨before, last, hrest, hbefore, hlast⟩ := ih
    refine ⟨first :: before, last, by rw [hparts, hrest, List.cons_append],
      List.forall_mem_cons.2 ⟨hafter, hbefore⟩, ?_⟩
    rw [hlast, Nesting.after_append, hafter, after_separator_cons hseparator]

/-- The sections of the parts, with the separators between them. -/
def sections (separator : Char) (parts : List Text) : List Section :=
  [⟨.plain, [separator]⟩].intercalate (parts.map fun part => (scan part).sections)

theorem merged_scan (hseparator : separator ∉ ['#', '[', ']', '\\']) (t : Text) :
    Section.merged (scan t).sections = Section.merged (sections separator (split separator t)) := by
  induction t using split_induction separator with
  | whole t hwhole => rw [hwhole, sections, List.map_singleton, List.intercalate_singleton]
  | cut first rest hafter _ hparts ih =>
    -- the separator is a text of its own, behind which nothing is open
    have hback : Nesting.after {} [separator] = {} := after_separator_cons hseparator []
    have hscan : scan [separator] = ⟨[⟨.plain, [separator]⟩], []⟩ :=
      scan_of_neutral (Text.neutral_singleton hseparator)
    have hbehind : Section.merged (scan (separator :: rest)).sections =
        Section.merged (⟨.plain, [separator]⟩ :: sections separator (split separator rest)) := by
      have hrest := merged_scan_append hback rest
      rw [hscan] at hrest
      exact hrest.trans (Section.merged_append_congr [⟨.plain, [separator]⟩] ih)
    have hsections : sections separator (first :: split separator rest) =
        (scan first).sections ++
          ⟨.plain, [separator]⟩ :: sections separator (split separator rest) := by
      obtain ⟨next, parts, h⟩ := List.exists_cons_of_ne_nil (splitFrom_ne_nil separator {} rest)
      rw [split, h]
      simp only [sections, List.map_cons, List.intercalate_cons_cons, List.append_assoc,
        List.singleton_append]
    rw [hparts, hsections, merged_scan_append hafter]
    exact Section.merged_append_congr _ hbehind

/-- **The split into alternatives agrees with the scan.**  The parts joined again are the text. A
separator that is not markup is met only where nothing is open: no part is cut again, all parts but
the last are scanned to their end with nothing left open, and what the text leaves open is what its
last part does. Put together again with the separators as plain text, the sections of the parts are
those of the text, neighbouring stretches of plain text being one. -/
theorem scan_split (separator : Char) (t : Text) :
    let parts := split separator t
    let leftOpen := fun part => (scan part).problems.filter Diagnostic.isUnfinished
    Text.join [separator] parts = t ∧
      (separator ∉ ['#', '[', ']', '\\'] →
        (∀ part ∈ parts, split separator part = [part]) ∧
        (∃ before last, parts = before ++ [last] ∧
          (∀ part ∈ before, leftOpen part = [] ∧ Escape.isOpen part = false) ∧
          leftOpen last = leftOpen t) ∧
        Section.merged (scan t).sections = Section.merged (sections separator parts)) := by
  intro parts leftOpen
  refine ⟨join_splitFrom separator {} t, fun hseparator => ⟨split_of_mem_split t, ?_,
    merged_scan hseparator t⟩⟩
  obtain ⟨before, last, hparts, hbefore, hlast⟩ := exists_split_eq hseparator t
  refine ⟨before, last, hparts, fun part hpart => ⟨?_, ?_⟩, ?_⟩
  · simp only [leftOpen, filter_isUnfinished_scan, hbefore part hpart]
    rfl
  · exact (Nesting.escaped_after {} part).symm.trans (congrArg Nesting.escaped (hbefore part hpart))
  · simp only [leftOpen, filter_isUnfinished_scan, hlast]

/-- Separators behind an escape mark, in a tag and in brackets, an empty part, and a bracket that
nothing opened, behind which neither a separator nor the mark of a tag counts. -/
theorem scan_split_malformed :
    let t := "a\\,b#x,y#,,[p:q,r]c,d]#e,f".toList
    let parts := ["a\\,b#x,y#".toList, [], "[p:q,r]c".toList, "d]#e,f".toList]
    split ',' t = parts ∧ (∀ part ∈ parts, split ',' part = [part]) ∧
      Section.merged (scan t).sections = Section.merged (sections ',' parts) ∧
      (scan "d]#e,f".toList).problems = [.tooManyClose] := by
  intro t parts
  have hparts : split ',' t = parts := by decide +kernel
  obtain ⟨-, hagrees⟩ := scan_split ',' t
  obtain ⟨hagain, -, hmerged⟩ := hagrees (by decide)
  rw [hparts] at hagain hmerged
  exact ⟨hparts, hagain, hmerged, by decide +kernel⟩

end Alternatives

end TextGrammar
