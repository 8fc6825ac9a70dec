import Mathlib.Data.List.Basic
import TextGrammar.Decimal.Layout

/-!
# Numerals that read back

A numeral that is written with digits wherever it has a part for them is read back part by part
(`Numeral.read?_text`). Every layout that puts digits behind the point of a whole number writes such
numerals, and without leading zeros, whatever the decimal (`Layout.strict_numeral`).
-/

namespace TextGrammar

/-- At least one digit and nothing else. -/
def Text.IsDigits (t : Text) : Prop := t ≠ [] ∧ ∀ c ∈ t, c.isDigit = true

namespace Numeral

/-- No plus sign, digits in every part that is there, and no leading zeros. -/
structure Strict (n : Numeral) : Prop where
  sign : n.sign = none ∨ n.sign = some '-'
  whole : n.whole.IsDigits
  leading : n.whole.length = 1 ∨ n.whole.head? ≠ some '0'
  fraction : ∀ digits ∈ n.fraction, digits.IsDigits
  exponent : ∀ e ∈ n.exponent, e.1 ∈ [none, some '+', some '-'] ∧ e.2.IsDigits

/-! ### Reading the parts -/

/-- The text of the part behind the point, with the point. -/
def fractionText (fraction : Option Text) : Text := fraction.elim [] ('.' :: ·)

/-- The text of an exponent, with its mark. -/
def exponentText (exponent : Option (Option Char × Text)) : Text :=
  exponent.elim [] fun e => 'e' :: e.1.toList ++ e.2

theorem text_eq (n : Numeral) :
    n.text = n.sign.toList ++ (n.whole ++ (fractionText n.fraction ++ exponentText n.exponent)) := by
  simp only [text, fractionText, exponentText, List.append_assoc]

theorem takeSign_of_isDigits {t : Text} (h : t.IsDigits) (rest : Text) :
    takeSign (t ++ rest) = (none, t ++ rest) := by
  obtain ⟨hne, hdigits⟩ := h
  obtain ⟨c, t, rfl⟩ := List.exists_cons_of_ne_nil hne
  have hc := hdigits c List.mem_cons_self
  rw [List.cons_append]
  unfold takeSign
  split
  · simp_all
  · simp_all
  · rfl

theorem takeSign_append {sign : Option Char} (hsign : sign ∈ [none, some '+', some '-']) {t : Text}
    (h : t.IsDigits) (rest : Text) :
    takeSign (sign.toList ++ (t ++ rest)) = (sign, t ++ rest) := by
  simp only [List.mem_cons, List.not_mem_nil, or_false] at hsign
  rcases hsign with rfl | rfl | rfl
  · exact takeSign_of_isDigits h rest
  · rfl
  · rfl

theorem takeWhile_isDigit {t rest : Text} (h : ∀ c ∈ t, c.isDigit = true)
    (hrest : ∀ c ∈ rest.head?, c.isDigit = false) :
    (t ++ rest).takeWhile Char.isDigit = t ∧ (t ++ rest).dropWhile Char.isDigit = rest := by
  rw [List.takeWhile_append_of_pos h, List.dropWhile_append_of_pos h]
  cases rest with
  | nil => exact ⟨List.append_nil t, rfl⟩
  | cons c rest =>
    have hc : c.isDigit = false := hrest c rfl
    simp [hc]

theorem head?_exponentText (exponent : Option (Option Char × Text)) :
    ∀ c ∈ (exponentText exponent).head?, c = 'e' := by
  cases exponent <;> simp [exponentText]

theorem head?_fractionText (fraction : Option Text) (exponent : Option (Option Char × Text)) :
    ∀ c ∈ (fractionText fraction ++ exponentText exponent).head?, c = '.' ∨ c = 'e' := by
  cases fraction with
  | none => exact fun c hc => .inr (head?_exponentText exponent c hc)
  | some digits => simp [fractionText]

theorem takeFraction_append {fraction : Option Text}
    (h : ∀ digits ∈ fraction, digits.IsDigits) (exponent : Option (Option Char × Text)) :
    takeFraction (fractionText fraction ++ exponentText exponent) =
      (fraction, exponentText exponent) := by
  cases fraction with
  | none =>
    cases exponent <;> rfl
  | some digits =>
    have hrest : ∀ c ∈ (exponentText exponent).head?, c.isDigit = false := by
      intro c hc
      rw [head?_exponentText exponent c hc]
      rfl
    obtain ⟨htake, hdrop⟩ := takeWhile_isDigit (h digits rfl).2 hrest
    simp only [fractionText, Option.elim_some, List.cons_append, takeFraction, htake, hdrop]

theorem readExponent?_exponentText {exponent : Option (Option Char × Text)}
    (h : ∀ e ∈ exponent, e.1 ∈ [none, some '+', some '-'] ∧ e.2.IsDigits) :
    readExponent? (exponentText exponent) = some exponent := by
  cases exponent with
  | none => rfl
  | some e =>
    obtain ⟨sign, digits⟩ := e
    obtain ⟨hsign, hdigits⟩ := h _ rfl
    have htake := takeSign_append hsign hdigits []
    rw [List.append_nil] at htake
    simp only [exponentText, Option.elim_some, List.cons_append, readExponent?, htake]
    have hall : digits.all Char.isDigit = true := List.all_eq_true.2 hdigits.2
    simp [hall, hdigits.1]

/-- **A strict numeral is read back as it was written.** -/
theorem read?_text {n : Numeral} (h : n.Strict) : read? n.text = some n := by
  have hsign : n.sign ∈ [none, some '+', some '-'] := by
    rcases h.sign with h | h <;> simp [h]
  have hrest : ∀ c ∈ (fractionText n.fraction ++ exponentText n.exponent).head?,
      c.isDigit = false := by
    intro c hc
    rcases head?_fractionText _ _ c hc with rfl | rfl <;> rfl
  obtain ⟨htake, hdrop⟩ := takeWhile_isDigit h.whole.2 hrest
  rw [text_eq]
  simp only [read?, takeSign_append hsign h.whole, htake, hdrop,
    takeFraction_append h.fraction, readExponent?_exponentText h.exponent, Option.map_some]

end Numeral

/-! ### Numerals of decimals -/

theorem Text.isDigits_toDigits (n : Nat) : Text.IsDigits (Nat.toDigits 10 n) :=
  ⟨Nat.toDigits_ne_nil, fun _ hc => Nat.isDigit_of_mem_toDigits (by decide) (by decide) hc⟩

theorem Text.IsDigits.append {s t : Text} (hs : s.IsDigits) (ht : ∀ c ∈ t, c.isDigit = true) :
    Text.IsDigits (s ++ t) := by
  refine ⟨fun h => hs.1 (List.append_eq_nil_iff.1 h).1, fun c hc => ?_⟩
  exact (List.mem_append.1 hc).elim (hs.2 c) (ht c)

theorem isDigit_of_mem_replicate {k : Nat} {c : Char} (h : c ∈ List.replicate k '0') :
    c.isDigit = true := by
  rw [List.eq_of_mem_replicate h]
  rfl

/-- Only zero begins with a zero. -/
theorem head?_toDigits_ne {n : Nat} (h : n ≠ 0) : (Nat.toDigits 10 n).head? ≠ some '0' := by
  induction n using Nat.strongRecOn with
  | ind n ih =>
    rw [Nat.toDigits_eq_if (by decide)]
    split_ifs with hlt
    · have hdigit : ∀ m < 10, m ≠ 0 → [m.digitChar].head? ≠ some '0' := by decide
      exact hdigit n hlt h
    · rw [List.head?_append_of_ne_nil _ Nat.toDigits_ne_nil]
      exact ih (n / 10) (by omega) (by omega)

namespace Layout

variable {layout : Layout} {digits : Text}

theorem strict_positional (hwhole : ∀ t ∈ layout.wholeFraction, t.IsDigits) (n : Nat) {point : Int}
    (hpoint : n = 0 → point ≤ 1) :
    (positional (Nat.toDigits 10 n) point layout.wholeFraction).Strict := by
  have hdigits := Text.isDigits_toDigits n
  have hzeros : ∀ k, ∀ c ∈ List.replicate k '0', c.isDigit = true :=
    fun _ _ => isDigit_of_mem_replicate
  unfold positional
  split_ifs with hle hlength
  · refine ⟨.inl rfl, ⟨by simp, by simp⟩, .inl rfl, ?_, nofun⟩
    rintro _ ⟨⟩
    refine ⟨fun h => hdigits.1 (List.append_eq_nil_iff.1 h).2, fun c hc => ?_⟩
    exact (List.mem_append.1 hc).elim (hzeros _ c) (hdigits.2 c)
  · refine ⟨.inl rfl, hdigits.append (hzeros _), ?_, hwhole, nofun⟩
    by_cases hzero : n = 0
    · -- zero has one digit, and its point stands right behind it
      subst hzero
      have hone := hpoint rfl
      have hlen : (Nat.toDigits 10 0).length = 1 := rfl
      left
      rw [List.length_append, List.length_replicate, hlen]
      omega
    · right
      rw [List.head?_append_of_ne_nil _ hdigits.1]
      exact head?_toDigits_ne hzero
  · have hpos : 0 < point.toNat := by omega
    have hzero : n ≠ 0 := by
      rintro rfl
      have hlen : (Nat.toDigits 10 0).length = 1 := rfl
      omega
    refine ⟨.inl rfl, ⟨?_, fun c hc => hdigits.2 c (List.mem_of_mem_take hc)⟩, .inr ?_, ?_, nofun⟩
    · intro h
      rcases List.take_eq_nil_iff.1 h with h | h
      · omega
      · exact hdigits.1 h
    · rw [List.head?_take, if_neg (by omega)]
      exact head?_toDigits_ne hzero
    · rintro _ ⟨⟩
      refine ⟨fun h => ?_, fun c hc => hdigits.2 c (List.mem_of_mem_drop hc)⟩
      have := List.drop_eq_nil_iff.1 h
      omega

theorem strict_scientific (hdigits : digits.IsDigits) (exponent : Int) :
    (scientific digits exponent).Strict := by
  obtain ⟨c, rest, rfl⟩ := List.exists_cons_of_ne_nil hdigits.1
  refine ⟨.inl rfl, ⟨List.cons_ne_nil c [], ?_⟩, .inl rfl, ?_, ?_⟩
  · exact fun d hd => hdigits.2 d (List.mem_of_mem_take hd)
  · simp only [scientific]
    split_ifs with hlength
    · exact nofun
    · rintro _ ⟨⟩
      refine ⟨fun h => hlength (List.drop_eq_nil_iff.1 h), fun d hd => ?_⟩
      exact hdigits.2 d (List.mem_of_mem_drop hd)
  · rintro _ ⟨⟩
    refine ⟨?_, Text.isDigits_toDigits _⟩
    split_ifs <;> simp

theorem strict_signed {n : Numeral} (h : n.Strict) (d : Decimal) : (signed d n).Strict := by
  refine ⟨?_, h.whole, h.leading, h.fraction, h.exponent⟩
  simp only [signed]
  split_ifs <;> simp

/-- **Every decimal is written as a strict numeral.** -/
theorem strict_numeral (hwhole : ∀ t ∈ layout.wholeFraction, t.IsDigits) (d : Decimal) :
    (layout.numeral d).Strict := by
  have hpoint : d.digits = 0 → (if d.digits = 0 then 1 else d.point) ≤ 1 := fun h => by simp [h]
  unfold numeral
  generalize (if d.digits = 0 then 1 else d.point) = point at hpoint ⊢
  refine strict_signed ?_ d
  split_ifs
  · exact strict_positional hwhole _ hpoint
  · exact strict_scientific (Text.isDigits_toDigits _) _

end Layout

end TextGrammar
