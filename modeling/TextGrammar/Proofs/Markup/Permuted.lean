import TextGrammar.Proofs.Markup.Alternatives
import TextGrammar.Proofs.Markup.Rescanned
import TextGrammar.Proofs.Markup.Scoped

/-!
# The sections of a tag in another order

The text of a tag is one clause among actions, each closed on its own. So these may be put in any
other order: what they are written as is the text of a tag again, and it is taken apart into the same
clause and the same actions, in the new order (`Tag.read_of_perm`).

A text is `Escaped` if every bracket and every `#` in it is escaped and no escape mark is left open.
This says less than that there is no markup in it, and still such a text does not move the place it
stands in (`Text.Escaped.neutral`), nor does any of its alternatives (`Text.Escaped.of_mem_split`).
-/

namespace TextGrammar

/-! ### Texts in which all markup is escaped -/

theorem Escape.isOpen_append {a : Text} (h : isOpen a = false) (b : Text) :
    isOpen (a ++ b) = isOpen b := by
  unfold isOpen at h ⊢
  rw [List.foldl_append, h]

namespace Text

/-- Every bracket and every `#` in the text is escaped, and no escape mark is left open. -/
def Escaped (t : Text) : Prop :=
  Escape.isOpen t = false ∧
    ∀ k (h : k < t.length), t[k] ∈ ['#', '[', ']'] → Escape.isOpen (t.take k) = true

instance (t : Text) : Decidable t.Escaped := inferInstanceAs (Decidable (_ ∧ _))

variable {separator : Char} {a b t : Text}

theorem Escaped.neutral (h : t.Escaped) : t.Neutral := by
  intro n hn
  have hmarks : ∀ u : Text, (n.after u).escaped = Escape.isOpen u := by
    intro u
    rw [Nesting.escaped_after, hn]
    rfl
  obtain ⟨hund, hafter⟩ := Nesting.undelimited_of_escaped fun k hk hc => by
    rw [hmarks, h.2 k hk hc]
  refine ⟨hund, hafter.trans ?_⟩
  rw [hmarks, h.1, ← hn]

theorem Escaped.of_append (h : (a ++ b).Escaped) (ha : Escape.isOpen a = false) :
    a.Escaped ∧ b.Escaped := by
  obtain ⟨hopen, hmarkup⟩ := h
  refine ⟨⟨ha, fun k hk hc => ?_⟩, ?_, fun k hk hc => ?_⟩
  · have hka : k < (a ++ b).length := by
      rw [List.length_append]
      omega
    have hmarked := hmarkup k hka (by rwa [List.getElem_append_left hk])
    rwa [List.take_append_of_le_length (Nat.le_of_lt hk)] at hmarked
  · rwa [Escape.isOpen_append ha] at hopen
  · have hkb : a.length + k < (a ++ b).length := by
      rw [List.length_append]
      omega
    have hmarked := hmarkup (a.length + k) hkb (by simpa using hc)
    rwa [List.take_length_add_append, Escape.isOpen_append ha] at hmarked

end Text

namespace Alternatives

variable {separator : Char} {t : Text}

/-- A separator that is itself markup never separates. -/
theorem splitFrom_of_markup (h : separator ∈ ['#', '[', ']', '\\']) (n : Nesting) (t : Text) :
    splitFrom separator n t = [t] := by
  induction t generalizing n with
  | nil => rfl
  | cons c t ih =>
    have hnever : n.splitsAt separator c = false := by
      by_contra hcut
      simp only [Nesting.splitsAt, Bool.not_eq_false, Bool.and_eq_true, beq_iff_eq,
        bne_iff_ne] at hcut
      obtain ⟨⟨⟨⟨⟨-, rfl⟩, hescape⟩, hopen⟩, hclose⟩, hhash⟩ := hcut
      simp [hescape, hopen, hclose, hhash] at h
    rw [splitFrom_cons_of_not_splitsAt hnever, ih]
    rfl

end Alternatives

/-- **The alternatives of an escaped text** are escaped. -/
theorem Text.Escaped.of_mem_split {separator : Char} {t : Text} (h : t.Escaped) :
    ∀ part ∈ Alternatives.split separator t, part.Escaped := by
  by_cases hseparator : separator ∈ ['#', '[', ']', '\\']
  · rw [Alternatives.split, Alternatives.splitFrom_of_markup hseparator]
    exact List.forall_mem_singleton.2 h
  · induction t using Alternatives.split_induction separator with
    | whole t hwhole =>
      rw [hwhole]
      exact List.forall_mem_singleton.2 h
    | cut first rest hafter _ hparts ih =>
      have hfirst : Escape.isOpen first = false :=
        (Nesting.escaped_after {} first).symm.trans (congrArg Nesting.escaped hafter)
      have hmark : Escape.isOpen [separator] = false := by
        simp_all [Escape.isOpen, Escape.mark]
      obtain ⟨hbefore, hbehind⟩ := h.of_append hfirst
      have hrest : Escaped rest := (Escaped.of_append (a := [separator]) hbehind hmark).2
      rw [hparts]
      exact List.forall_mem_cons.2 ⟨hbefore, ih hrest⟩

/-! ### One clause among actions -/

namespace Section

/-- Where no section is plain, or one of them, no two plain ones stand side by side. -/
theorem parted_of_single {xs : List Section}
    (h : (xs.filter (·.kind == .plain)).length ≤ 1) : Parted xs := by
  refine List.Pairwise.isChain ?_
  induction xs with
  | nil => exact .nil
  | cons x xs ih =>
    by_cases hx : x.kind = .plain
    · rw [List.filter_cons_of_pos (by simpa using hx), List.length_cons] at h
      have hnone : xs.filter (·.kind == .plain) = [] :=
        List.length_eq_zero_iff.1 (Nat.le_zero.1 (Nat.le_of_succ_le_succ h))
      have hothers : ∀ y ∈ xs, y.kind ≠ .plain := by simpa using hnone
      exact .cons (fun y hy _ => hothers y hy) (ih (by rw [hnone]; exact Nat.zero_le 1))
    · rw [List.filter_cons_of_neg (by simpa using hx)] at h
      exact .cons (fun _ _ hplain => absurd hplain hx) (ih h)

end Section

namespace Tag

variable {raw : Text} {clause : Clause} {xs : List Section}

/-- **The sections of a tag may stand in any order.**  If none of its actions is empty, they are the
sections of a tag in which the same actions run in the new order before the same clause. -/
theorem read_of_perm (hclosed : Section.Closed ⟨.tag, raw⟩) (hread : read raw = .clause clause)
    (hraw : ∀ p ∈ clause.preactions, p.raw ≠ []) (hperm : xs.Perm (scan raw).sections) :
    let other : Clause := { clause with preactions := xs.filter (·.kind != .plain) }
    scan (xs.flatMap Section.source) = ⟨xs, []⟩ ∧
      Section.Closed ⟨.tag, xs.flatMap Section.source⟩ ∧
      read (xs.flatMap Section.source) = .clause other ∧
      other.preactions.Perm clause.preactions := by
  intro other
  obtain ⟨main, hmain, rfl⟩ := exists_filter_of_read_eq_clause hread
  have hne : ∀ x ∈ (scan raw).sections, x.raw ≠ [] := by
    intro x hx
    by_cases hplain : x.kind = .plain
    · exact plain_ne_of_mem_scan hx hplain
    · exact hraw x (List.mem_filter.2 ⟨hx, by simpa using hplain⟩)
  have hproblems : (scan raw).problems = [] := by
    rw [problems_scan_eq, Section.emptyReports_eq_nil fun x hx => .inr (hne x hx),
      hclosed.after_raw]
    rfl
  have hsingle : xs.filter (·.kind == .plain) = [main] := by
    have hfiltered := hperm.filter (·.kind == .plain)
    rw [hmain] at hfiltered
    exact List.perm_singleton.1 hfiltered
  -- a section is closed wherever it stands
  have hxs : ∀ x ∈ xs, x.Closed := fun x hx =>
    closed_of_mem_scan_of_after (hperm.mem_iff.1 hx) hclosed.after_raw
  have hkind : ∀ x ∈ xs, x.kind = .plain ∨ x.kind = .action := fun x hx =>
    hclosed.kind_of_mem_scan (hperm.mem_iff.1 hx)
  have hreadable : Section.Readable xs :=
    { closed := hxs
      kind_ne := fun x hx => kind_ne_of_mem_scan (hperm.mem_iff.1 hx)
      raw_ne := fun x hx _ => hne x (hperm.mem_iff.1 hx)
      parted := Section.parted_of_single (by rw [hsingle]; exact Nat.le_refl 1) }
  have hscan : scan (xs.flatMap Section.source) = ⟨xs, []⟩ := by
    rw [scan_flatMap_source hreadable,
      Section.emptyReports_eq_nil fun x hx => .inr (hne x (hperm.mem_iff.1 hx))]
  refine ⟨hscan, Section.closed_tag hxs hkind, ?_, hperm.filter _⟩
  simp only [read, hscan, hsingle, other, hproblems]

end Tag

end TextGrammar
