import TextGrammar.Markup.Section
import TextGrammar.Markup.Nesting
import TextGrammar.Proofs.Markup.Sections

/-!
# The texts inside a tag or an action

Expanding a tag runs the actions in it, and an action expands texts of its own. All of these are
parts of the text they come from: the actions of a tag are sections of it, the rules of a push lie
behind its colon, and an alternative is no longer than the rules it is one of.
-/

namespace TextGrammar

theorem Text.eq_of_cut? {sep : Char} {t before after : Text}
    (h : Text.cut? sep t = some (before, after)) : t = before ++ sep :: after := by
  induction t generalizing before with
  | nil => simp [Text.cut?] at h
  | cons c t ih =>
    rw [Text.cut?] at h
    split_ifs at h with hc
    · obtain ⟨rfl, rfl⟩ : [] = before ∧ t = after := by simpa using h
      rw [hc, List.nil_append]
    · obtain ⟨⟨b, a⟩, hcut, hpair⟩ := Option.map_eq_some_iff.1 h
      obtain ⟨rfl, rfl⟩ : c :: b = before ∧ a = after := by simpa using hpair
      rw [ih hcut, List.cons_append]

theorem Text.cut?_append_cons {sep : Char} {a : Text} (h : sep ∉ a) (b : Text) :
    Text.cut? sep (a ++ sep :: b) = some (a, b) := by
  induction a with
  | nil => simp [Text.cut?]
  | cons c a ih =>
    simp only [List.mem_cons, not_or] at h
    obtain ⟨hc, ha⟩ := h
    rw [List.cons_append, Text.cut?, if_neg (Ne.symm hc), ih ha]
    rfl

theorem Text.cut?_of_not_mem {sep : Char} {t : Text} (h : sep ∉ t) : Text.cut? sep t = none := by
  induction t with
  | nil => rfl
  | cons c t ih =>
    simp only [List.mem_cons, not_or] at h
    obtain ⟨hc, ht⟩ := h
    rw [Text.cut?, if_neg (Ne.symm hc), ih ht]
    rfl

theorem Text.pieces_of_not_mem {sep : Char} {t : Text} (h : sep ∉ t) : Text.pieces sep t = [t] := by
  induction t with
  | nil => rfl
  | cons c t ih =>
    simp only [List.mem_cons, not_or] at h
    obtain ⟨hc, ht⟩ := h
    rw [Text.pieces_cons, if_neg (Ne.symm hc), ih ht]
    rfl

theorem Text.pieces_append_cons {sep : Char} {a : Text} (h : sep ∉ a) (b : Text) :
    Text.pieces sep (a ++ sep :: b) = a :: Text.pieces sep b := by
  induction a with
  | nil => rw [List.nil_append, Text.pieces_cons, if_pos rfl]
  | cons c a ih =>
    simp only [List.mem_cons, not_or] at h
    obtain ⟨hc, ha⟩ := h
    rw [List.cons_append, Text.pieces_cons, if_neg (Ne.symm hc), ih ha]
    rfl

/-- Parts without separators are told apart again when they are joined. -/
theorem Text.pieces_join {sep : Char} {parts : List Text} (hne : parts ≠ [])
    (hparts : ∀ part ∈ parts, sep ∉ part) : Text.pieces sep (Text.join [sep] parts) = parts := by
  induction parts with
  | nil => exact absurd rfl hne
  | cons part parts ih =>
    obtain ⟨hpart, hparts⟩ := List.forall_mem_cons.1 hparts
    cases parts with
    | nil => exact Text.pieces_of_not_mem hpart
    | cons next parts =>
      rw [Text.join, List.append_assoc, List.singleton_append, Text.pieces_append_cons hpart,
        ih (List.cons_ne_nil _ _) hparts]
      exact List.cons_ne_nil _ _

theorem Text.forall_mem_join {sep : Text} {P : Char → Prop} (hsep : ∀ c ∈ sep, P c)
    {parts : List Text} (hparts : ∀ part ∈ parts, ∀ c ∈ part, P c) :
    ∀ c ∈ Text.join sep parts, P c := by
  induction parts with
  | nil => exact List.forall_mem_nil P
  | cons part parts ih =>
    obtain ⟨hpart, hparts⟩ := List.forall_mem_cons.1 hparts
    cases parts with
    | nil => exact hpart
    | cons next parts =>
      exact List.forall_mem_append.2 ⟨List.forall_mem_append.2 ⟨hpart, hsep⟩, ih hparts⟩

theorem Action.length_lt_of_read_eq_push {raw target rules : Text}
    (h : Action.read raw = .push target rules) : rules.length < raw.length := by
  unfold Action.read at h
  split at h
  · cases h
  · rename_i t r hcut
    split_ifs at h
    cases h
    rw [Text.eq_of_cut? hcut]
    simp; omega

theorem Action.eq_of_read_eq_evaluate {raw rule : Text} (h : Action.read raw = .evaluate rule) :
    rule = raw := by
  unfold Action.read at h
  split at h
  · cases h; rfl
  · split_ifs at h

namespace Alternatives

theorem length_le_of_mem_consPiece {c : Char} {parts : List Text} {n : Nat}
    (h : ∀ part ∈ parts, part.length ≤ n) :
    ∀ part ∈ Text.consPiece c parts, part.length ≤ n + 1 := by
  cases parts with
  | nil => simp [Text.consPiece]
  | cons first rest =>
    intro part hpart
    rcases List.mem_cons.1 hpart with rfl | hpart
    · exact Nat.succ_le_succ (h first List.mem_cons_self)
    · exact Nat.le_succ_of_le (h part (List.mem_cons_of_mem _ hpart))

theorem length_le_of_mem_splitFrom {separator : Char} {n : Nesting} {t : Text} :
    ∀ part ∈ splitFrom separator n t, part.length ≤ t.length := by
  induction t generalizing n with
  | nil => simp [splitFrom]
  | cons c t ih =>
    intro part hpart
    simp only [splitFrom] at hpart
    split_ifs at hpart
    · rcases List.mem_cons.1 hpart with rfl | hpart
      · simp
      · exact Nat.le_succ_of_le (ih part hpart)
    · exact length_le_of_mem_consPiece ih part hpart

theorem length_le_of_mem_split {separator : Char} {t part : Text}
    (h : part ∈ split separator t) : part.length ≤ t.length :=
  length_le_of_mem_splitFrom part h

end Alternatives

namespace Tag

theorem exists_filter_of_read_eq_clause {tag : Text} {clause : Clause}
    (h : read tag = .clause clause) :
    ∃ main, (scan tag).sections.filter (·.kind == .plain) = [main] ∧
      clause =
        { symbol := (Text.pieces '.' main.raw).headD []
          modifiers := (Text.pieces '.' main.raw).tail
          preactions := (scan tag).sections.filter (·.kind != .plain)
          problems := (scan tag).problems } := by
  simp only [read] at h
  split at h
  · cases h
  · rename_i main hmain
    cases h
    exact ⟨main, hmain, rfl⟩
  · cases h

theorem of_read_eq_clause {tag : Text} {clause : Clause} (h : read tag = .clause clause) :
    clause.problems = (scan tag).problems ∧
      ∀ p ∈ clause.preactions, p ∈ (scan tag).sections ∧ p.kind ≠ .plain := by
  obtain ⟨main, -, rfl⟩ := exists_filter_of_read_eq_clause h
  exact ⟨rfl, fun p hp => by simpa using hp⟩

/-- The symbol stands before the first point of the plain text of the tag. -/
theorem exists_main_of_read_eq_clause {tag : Text} {clause : Clause}
    (h : read tag = .clause clause) :
    ∃ main, ⟨.plain, main⟩ ∈ (scan tag).sections ∧
      clause.symbol = (Text.pieces '.' main).headD [] := by
  obtain ⟨main, hfilter, rfl⟩ := exists_filter_of_read_eq_clause h
  have hmain : main ∈ (scan tag).sections.filter (·.kind == .plain) := by simp [hfilter]
  obtain ⟨hmem, hkind⟩ := by simpa using hmain
  exact ⟨main.raw, by rwa [← hkind], rfl⟩

end Tag

end TextGrammar
