import Mathlib.Algebra.Ring.Parity
import Mathlib.Data.List.DropRight
import TextGrammar.Text

/-!
# Removing escape marks

`Escape.strip` goes over a text once and looks one character ahead. The same can be said as a
substitution in two passes, with a character `z` that stands in for the marks that stay
(`Escape.stripTwice`): every pair of marks becomes `z`, every other mark goes, and every `z` becomes
a mark.

A text that is put together from parts may be stripped part by part, unless a mark at the end of one
part escapes a mark at the beginning of the next. That depends on how many marks meet there
(`Escape.strip_eq_and_append_iff`): in a run of marks at the end of a text the last one waits for its
character if their number is odd (`Escape.isOpen_iff`), and behind such a mark a text is stripped
differently if it begins with an odd number of them (`Escape.stripFrom_true_iff`).
-/

namespace TextGrammar.Escape

/-- Put `z` in the place of every pair of marks, from the left. -/
def shield (z : Char) : Text → Text
  | [] => []
  | [c] => [c]
  | c :: d :: rest => if c = mark ∧ d = mark then z :: shield z rest else c :: shield z (d :: rest)

/-- Remove the escape marks of a text in two passes, with `z` for the marks that stay. -/
def stripTwice (z : Char) (t : Text) : Text :=
  ((shield z t).filter (· ≠ mark)).map fun c => if c = z then mark else c

/-- How many marks a text begins with. -/
def leading (t : Text) : Nat := (t.takeWhile (· = mark)).length

/-- How many marks a text ends in. -/
def trailing (t : Text) : Nat := (t.rtakeWhile (· = mark)).length

variable {z c : Char} {t : Text}

/-! ### One pass -/

theorem stripFrom_true_cons (c : Char) (t : Text) : stripFrom true (c :: t) = c :: strip t := by
  simp [stripFrom, strip]

theorem strip_mark_cons (t : Text) : strip (mark :: t) = stripFrom true t := by
  simp [stripFrom, strip]

theorem strip_cons_of_ne (h : c ≠ mark) (t : Text) : strip (c :: t) = c :: strip t := by
  simp [stripFrom, strip, h]

/-- What stands before the second part decides only whether a mark waits for its first character. -/
theorem strip_append (a b : Text) : strip (a ++ b) = strip a ++ stripFrom (isOpen a) b := by
  have hfrom : ∀ escaped, stripFrom escaped (a ++ b) = stripFrom escaped a ++
      stripFrom (a.foldl (fun escaped c => !escaped && c == mark) escaped) b := by
    induction a with
    | nil => intro escaped; rfl
    | cons c a ih =>
      intro escaped
      by_cases hmark : c = mark
      · cases escaped <;> simp [stripFrom, hmark, ih]
      · have hskip : (c == mark) = false := beq_false_of_ne hmark
        cases escaped <;> simp [stripFrom, hmark, hskip, ih]
  exact hfrom false

/-! ### Two passes -/

/-- **Both ways of removing marks give the same**, if `z` is not in the text. -/
theorem strip_eq_stripTwice (h : z ∉ t) : strip t = stripTwice z t := by
  unfold stripTwice
  fun_induction shield z t with
  | case1 => rfl
  | case2 c =>
    have hz : c ≠ z := fun hcz => h (hcz ▸ List.mem_singleton_self c)
    by_cases hmark : c = mark
    · simp [strip, stripFrom, hmark]
    · simp [strip, stripFrom, hmark, hz]
  | case3 c d rest hpair ih =>
    obtain ⟨rfl, rfl⟩ := hpair
    simp only [List.mem_cons, not_or] at h
    obtain ⟨hz, -, hrest⟩ := h
    rw [strip_mark_cons, stripFrom_true_cons, ih hrest]
    simp [hz]
  | case4 c d rest hpair ih =>
    obtain ⟨hz, hrest⟩ := not_or.1 fun hmem => h (List.mem_cons.2 hmem)
    by_cases hmark : c = mark
    · -- the mark is not one of a pair, so what it escapes is no mark
      have hd : d ≠ mark := fun hd => hpair ⟨hmark, hd⟩
      rw [hmark, strip_mark_cons, stripFrom_true_cons, ← strip_cons_of_ne hd, ih hrest]
      simp
    · rw [strip_cons_of_ne hmark, ih hrest]
      simp [hmark, Ne.symm hz]

/-! ### Runs of marks -/

theorem leading_mark_cons (t : Text) : leading (mark :: t) = leading t + 1 := by
  simp [leading]

theorem leading_cons_of_ne (h : c ≠ mark) (t : Text) : leading (c :: t) = 0 := by
  simp [leading, h]

theorem isOpen_iff : isOpen t = true ↔ Odd (trailing t) := by
  induction t using List.reverseRecOn with
  | nil => simp [isOpen, trailing]
  | append_singleton t c ih =>
    have hopen : isOpen (t ++ [c]) = (!isOpen t && c == mark) := by simp [isOpen]
    by_cases hmark : c = mark
    · have hcount : trailing (t ++ [c]) = trailing t + 1 := by
        simp [trailing, hmark]
      rw [hopen, hcount, Nat.odd_add_one, ← ih]
      simp [hmark]
    · have hcount : trailing (t ++ [c]) = 0 := by simp [trailing, hmark]
      simp [hopen, hcount, hmark]

/-- Behind an open mark a text is stripped as by itself if it begins with an even number of marks,
and otherwise one mark more stays. -/
theorem stripFrom_true_iff (t : Text) :
    (stripFrom true t = strip t ↔ ¬Odd (leading t)) ∧
      (stripFrom true t = mark :: strip t ↔ Odd (leading t)) := by
  -- a mark at the beginning turns each of the two into the other
  induction t with
  | nil => simp [stripFrom, leading]
  | cons c t ih =>
    obtain ⟨heven, hodd⟩ := ih
    by_cases hmark : c = mark
    · rw [hmark, stripFrom_true_cons, strip_mark_cons, leading_mark_cons, Nat.odd_add_one, ← hodd,
        List.cons_inj_right, not_not]
      exact ⟨eq_comm, by rw [hodd, ← heven, eq_comm]⟩
    · rw [stripFrom_true_cons, strip_cons_of_ne hmark, leading_cons_of_ne hmark]
      simp

/-- **One pass or two, and part by part.**  Stripping is the substitution in two passes with any
character that is not in the text. Two texts one behind the other are stripped as each by itself if
and only if it is not an odd number of marks that the first ends in and an odd number that the
second begins with. -/
theorem strip_eq_and_append_iff :
    (∀ (t : Text) (z : Char), z ∉ t → strip t = stripTwice z t) ∧
      ∀ a b : Text, strip (a ++ b) = strip a ++ strip b ↔ ¬(Odd (trailing a) ∧ Odd (leading b)) := by
  refine ⟨fun t z h => strip_eq_stripTwice h, fun a b => ?_⟩
  rw [strip_append, List.append_cancel_left_eq, ← isOpen_iff]
  cases isOpen a with
  | false => simp [strip]
  | true =>
    rw [(stripFrom_true_iff b).1]
    simp

/-- Five marks and then a last one: two of them stay. Between the parts of the second text two odd
runs meet, and one mark stays that neither part has by itself. -/
theorem strip_eq_and_append_iff_runs :
    let t : Text := "\\\\\\\\\\#z\\".toList
    let a : Text := "a\\\\\\".toList
    let b : Text := "\\b".toList
    '|' ∉ t ∧ strip t = stripTwice '|' t ∧ strip t = "\\\\#z".toList ∧
      strip (a ++ b) ≠ strip a ++ strip b ∧ strip (b ++ a) = strip b ++ strip a := by
  intro t a b
  obtain ⟨htwice, happend⟩ := strip_eq_and_append_iff
  have hz : '|' ∉ t := by decide
  exact ⟨hz, htwice t '|' hz, by decide, fun h => (happend a b).1 h (by decide),
    (happend b a).2 (by decide)⟩

end TextGrammar.Escape
