import Mathlib.Tactic.SplitIfs
import TextGrammar.Json.Token
import TextGrammar.Json
import TextGrammar.Proofs.Decimal.Numeral

/-!
# The tokens of a written value

What is written of a value is cut into the tokens of the value (`Json.lex?_write`): strings with
whatever characters they have, numbers that are read back as they are written, and the white space
between the tokens dropped.

The cut goes on from any tokens before. A word or a number ends with the character behind it, so the
lexer is said to hold tokens when flushing it would give them (`Lexer.Holds`); behind a value there
is a comma, a line break or nothing, and all of these flush it.
-/

namespace TextGrammar.Json

/-! ### Tokens -/

mutual

/-- The tokens of a value. -/
def tokens : Json → List Token
  | null => [.null]
  | bool b => [.bool b]
  | number n => [.number n]
  | string t => [.string t]
  | array [] => [.openArray, .closeArray]
  | array (item :: items) =>
    .openArray :: tokens item ++ tokensOfItems items ++ [.closeArray]
  | object [] => [.openObject, .closeObject]
  | object (member :: members) =>
    .openObject :: tokensOfMember member ++ tokensOfMembers members ++ [.closeObject]

/-- The tokens of the items after the first one. -/
def tokensOfItems : List Json → List Token
  | [] => []
  | item :: items => .comma :: tokens item ++ tokensOfItems items

/-- The tokens of a member. -/
def tokensOfMember : Text × Json → List Token
  | (name, value) => .string name :: .colon :: tokens value

/-- The tokens of the members after the first one. -/
def tokensOfMembers : List (Text × Json) → List Token
  | [] => []
  | member :: members => .comma :: tokensOfMember member ++ tokensOfMembers members

end

/-- Every number among the tokens has the form of the format and is in range. -/
def Legible (ts : List Token) : Prop :=
  ∀ n, Token.number n ∈ ts → n.Strict ∧ (double? n).isSome

theorem number_mem_tokensOfItems {n : Numeral} {items : List Json}
    (h : .number n ∈ tokensOfItems items) : ∃ item ∈ items, .number n ∈ item.tokens := by
  induction items with
  | nil => simp [tokensOfItems] at h
  | cons item items ih =>
    simp only [tokensOfItems, List.cons_append, List.mem_cons, List.mem_append, reduceCtorEq,
      false_or] at h
    rcases h with h | h
    · exact ⟨item, List.mem_cons_self, h⟩
    · obtain ⟨item', hitem, hn⟩ := ih h
      exact ⟨item', List.mem_cons_of_mem _ hitem, hn⟩

theorem number_mem_tokensOfMembers {n : Numeral} {members : List (Text × Json)}
    (h : .number n ∈ tokensOfMembers members) :
    ∃ member ∈ members, .number n ∈ member.2.tokens := by
  induction members with
  | nil => simp [tokensOfMembers] at h
  | cons member members ih =>
    obtain ⟨name, value⟩ := member
    simp only [tokensOfMembers, tokensOfMember, List.cons_append, List.mem_cons, List.mem_append,
      reduceCtorEq, false_or] at h
    rcases h with h | h
    · exact ⟨(name, value), List.mem_cons_self, h⟩
    · obtain ⟨member, hmember, hn⟩ := ih h
      exact ⟨member, List.mem_cons_of_mem _ hmember, hn⟩

theorem legible_array {items : List Json} (h : ∀ item ∈ items, Legible item.tokens) :
    Legible (array items).tokens := by
  intro n hn
  have hmem : ∃ item ∈ items, .number n ∈ item.tokens := by
    cases items with
    | nil => simp [tokens] at hn
    | cons item items =>
      apply number_mem_tokensOfItems
      simpa [tokens, tokensOfItems] using hn
  obtain ⟨item, hitem, hn⟩ := hmem
  exact h item hitem n hn

theorem legible_object {members : List (Text × Json)}
    (h : ∀ member ∈ members, Legible member.2.tokens) : Legible (object members).tokens := by
  intro n hn
  have hmem : ∃ member ∈ members, .number n ∈ member.2.tokens := by
    cases members with
    | nil => simp [tokens] at hn
    | cons member members =>
      apply number_mem_tokensOfMembers
      simpa [tokens, tokensOfMember, tokensOfMembers] using hn
  obtain ⟨member, hmember, hn⟩ := hmem
  exact h member hmember n hn

namespace Lexer

variable {s : Lexer} {ts us : List Token}

/-- Read characters one after the other. -/
def read? (s : Lexer) (t : Text) : Option Lexer := t.foldlM step? s

theorem read?_cons (s : Lexer) (c : Char) (t : Text) :
    s.read? (c :: t) = (s.step? c).bind (·.read? t) := rfl

theorem read?_append (s : Lexer) (t u : Text) :
    s.read? (t ++ u) = (s.read? t).bind (·.read? u) := List.foldlM_append

/-- Flushed, the lexer has these tokens, the newest first. -/
def Holds (s : Lexer) (ts : List Token) : Prop := s.flush? = some ⟨.between, ts⟩

/-- With these tokens before, the lexer holds those when it has read the text. -/
def Leads (s : Lexer) (t : Text) (ts : List Token) : Prop := ∃ s', s.read? t = some s' ∧ s'.Holds ts

theorem Leads.of_read? {s' : Lexer} {t u : Text} (h : s.read? t = some s') (h' : s'.Leads u ts) :
    s.Leads (t ++ u) ts := by
  obtain ⟨s'', hread, hholds⟩ := h'
  exact ⟨s'', by rw [read?_append, h, Option.bind_some, hread], hholds⟩

theorem Leads.append {t u : Text} (h : s.Leads t ts) (h' : ∀ s' : Lexer, s'.Holds ts →
    s'.Leads u us) : s.Leads (t ++ u) us := by
  obtain ⟨s', hread, hholds⟩ := h
  exact .of_read? hread (h' s' hholds)

/-! ### Between values -/

/-- A character that is part of no word or number flushes the lexer. -/
theorem step?_of_holds (h : s.Holds ts) {c : Char} (halpha : c.isAlpha = false)
    (hnumeric : isNumeric c = false) : s.step? c = start? ⟨.between, ts⟩ c := by
  obtain ⟨mode, before⟩ := s
  unfold Holds at h
  cases mode with
  | between =>
    simp only [flush?, Option.some.injEq] at h
    simp only [step?, h]
  | word read => simp only [step?, halpha, Bool.false_eq_true, if_false, h, Option.bind_some]
  | number read => simp only [step?, hnumeric, Bool.false_eq_true, if_false, h, Option.bind_some]
  | string | escape | unit | half | halfEscape => cases h

theorem read?_blanks (ts : List Token) (k : Nat) :
    read? ⟨.between, ts⟩ (List.replicate k ' ') = some ⟨.between, ts⟩ := by
  induction k with
  | zero => rfl
  | succ k ih => rw [List.replicate_succ, read?_cons]; exact ih

theorem read?_lineBreak (h : s.Holds ts) (level : Nat) :
    s.read? (lineBreak level) = some ⟨.between, ts⟩ := by
  have hstep : s.step? '\n' = some ⟨.between, ts⟩ := step?_of_holds h (by decide) (by decide)
  rw [lineBreak, read?_cons, hstep]
  exact read?_blanks ts _

theorem read?_comma_lineBreak (h : s.Holds ts) (level : Nat) :
    s.read? (',' :: lineBreak level) = some ⟨.between, .comma :: ts⟩ := by
  have hstep : s.step? ',' = some ⟨.between, .comma :: ts⟩ :=
    step?_of_holds h (by decide) (by decide)
  have hholds : Holds ⟨.between, .comma :: ts⟩ (.comma :: ts) := rfl
  rw [read?_cons, hstep]
  exact read?_lineBreak hholds level

/-! ### Strings -/

theorem digitMode?_hexDigit {n : Nat} (h : n < 16) (read : Text) (high : Option Nat)
    (count value : Nat) :
    digitMode? read high count value (hexDigit n) =
      if count = 3 then unitMode? read high (value * 16 + n)
      else some (.unit read high (count + 1) (value * 16 + n)) := by
  have hall : ∀ n < 16, ((hexDigit n).isDigit || ('a' ≤ hexDigit n && hexDigit n ≤ 'f') ||
      ('A' ≤ hexDigit n && hexDigit n ≤ 'F')) = true ∧ Numeral.digitValue (hexDigit n) = n := by
    decide
  obtain ⟨hdigit, hvalue⟩ := hall n h
  simp only [digitMode?, hdigit, if_true, hvalue]

theorem read?_control {c : Char} (h : c < ' ') (read : Text) (ts : List Token) :
    Lexer.read? ⟨.string read, ts⟩
        ['\\', 'u', '0', '0', hexDigit (c.toNat / 16), hexDigit (c.toNat % 16)] =
      some ⟨.string (c :: read), ts⟩ := by
  have hlt : c.toNat < 32 := h
  have hzero : hexDigit 0 = '0' := rfl
  have hunit : unitMode? read none c.toNat = some (.string (c :: read)) := by
    have hhigh : isHigh c.toNat = false := by simp only [isHigh, Bool.and_eq_false_imp]; grind
    have hlow : isLow c.toNat = false := by simp only [isLow]; grind
    simp only [unitMode?, hhigh, hlow, Bool.false_eq_true, if_false, Char.ofNat_toNat]
  have hdigit : ∀ n count value, n < 16 → count ≠ 3 →
      Lexer.step? ⟨.unit read none count value, ts⟩ (hexDigit n) =
        some ⟨.unit read none (count + 1) (value * 16 + n), ts⟩ := by
    intro n count value hn hcount
    simp only [step?, digitMode?_hexDigit hn, if_neg hcount, Option.map_some]
  have hlast : Lexer.step? ⟨.unit read none 3 (c.toNat / 16), ts⟩ (hexDigit (c.toNat % 16)) =
      some ⟨.string (c :: read), ts⟩ := by
    have hvalue : c.toNat / 16 * 16 + c.toNat % 16 = c.toNat := by omega
    have hn : c.toNat % 16 < 16 := by omega
    simp only [step?, digitMode?_hexDigit hn, if_true, hvalue, hunit, Option.map_some]
  have hmark : Lexer.step? ⟨.string read, ts⟩ '\\' = some ⟨.escape read, ts⟩ := rfl
  have hopen : Lexer.step? ⟨.escape read, ts⟩ 'u' = some ⟨.unit read none 0 0, ts⟩ := rfl
  have hfirst := hdigit 0 0 0 (by decide) (by decide)
  have hsecond := hdigit 0 1 0 (by decide) (by decide)
  have hthird := hdigit (c.toNat / 16) 2 0 (by omega) (by decide)
  rw [hzero] at hfirst hsecond
  rw [Nat.zero_mul, Nat.zero_add] at hfirst hsecond hthird
  simp only [read?_cons, hmark, hopen, hfirst, hsecond, hthird, hlast, Option.bind_some]
  rfl

theorem read?_escapeChar (read : Text) (ts : List Token) (c : Char) :
    Lexer.read? ⟨.string read, ts⟩ (escapeChar c) = some ⟨.string (c :: read), ts⟩ := by
  unfold escapeChar
  split
  case h_8 hquote hmark _ _ _ _ _ =>
    have hquote : c ≠ '"' := hquote
    have hmark : c ≠ '\\' := hmark
    split_ifs with hcontrol
    · exact read?_control hcontrol read ts
    · rw [read?_cons]
      simp only [step?, if_neg hquote, stringMode?, if_neg hmark, if_neg hcontrol, Option.map_some,
        Option.bind_some]
      rfl
  all_goals rfl

theorem read?_escaped (read : Text) (ts : List Token) (t : Text) :
    Lexer.read? ⟨.string read, ts⟩ (t.flatMap escapeChar) =
      some ⟨.string (t.reverse ++ read), ts⟩ := by
  induction t generalizing read with
  | nil => rfl
  | cons c t ih =>
    rw [List.flatMap_cons, read?_append, read?_escapeChar, Option.bind_some, ih]
    simp

theorem read?_writeString (h : s.Holds ts) (t : Text) :
    s.read? (writeString t) = some ⟨.between, .string t :: ts⟩ := by
  have hstart : s.step? '"' = some ⟨.string [], ts⟩ := step?_of_holds h (by decide) (by decide)
  have hend : Lexer.read? ⟨.string t.reverse, ts⟩ ['"'] = some ⟨.between, .string t :: ts⟩ := by
    simp [read?, step?, emit]
  rw [writeString, List.cons_append, read?_cons, hstart, Option.bind_some, read?_append,
    read?_escaped, List.append_nil, Option.bind_some, hend]

/-! ### Numbers -/

theorem isNumeric_of_isDigit {c : Char} (h : c.isDigit = true) : isNumeric c = true := by
  simp [isNumeric, h]

theorem isNumeric_fractionText {fraction : Option Text}
    (h : ∀ digits ∈ fraction, digits.IsDigits) :
    ∀ c ∈ Numeral.fractionText fraction, isNumeric c = true := by
  intro c hc
  cases fraction with
  | none => cases hc
  | some digits =>
    rw [Numeral.fractionText, Option.elim_some, List.mem_cons] at hc
    rcases hc with rfl | hc
    · rfl
    · exact isNumeric_of_isDigit ((h digits rfl).2 c hc)

theorem isNumeric_exponentText {exponent : Option (Option Char × Text)}
    (h : ∀ e ∈ exponent, e.1 ∈ [none, some '+', some '-'] ∧ e.2.IsDigits) :
    ∀ c ∈ Numeral.exponentText exponent, isNumeric c = true := by
  intro c hc
  cases exponent with
  | none => cases hc
  | some e =>
    obtain ⟨hsign, hdigits⟩ := h e rfl
    simp only [Numeral.exponentText, Option.elim_some, List.cons_append, List.mem_cons,
      List.mem_append, Option.mem_toList] at hc
    rcases hc with rfl | hc | hc
    · rfl
    · simp only [List.mem_cons, List.not_mem_nil, or_false] at hsign
      rcases hsign with hsign | hsign | hsign <;> rw [hsign] at hc <;> cases hc <;> rfl
    · exact isNumeric_of_isDigit (hdigits.2 c hc)

/-- A strict numeral begins with its minus sign or with a digit, and no other part of it has a
character that ends a number. -/
theorem exists_text_eq_cons {n : Numeral} (h : n.Strict) :
    ∃ c rest, n.text = c :: rest ∧ (c = '-' ∨ c.isDigit = true) ∧
      ∀ d ∈ rest, isNumeric d = true := by
  have hwhole : ∀ d ∈ n.whole, isNumeric d = true := fun d hd =>
    isNumeric_of_isDigit (h.whole.2 d hd)
  have hrest : ∀ d ∈ Numeral.fractionText n.fraction ++ Numeral.exponentText n.exponent,
      isNumeric d = true := fun d hd =>
    (List.mem_append.1 hd).elim (isNumeric_fractionText h.fraction d)
      (isNumeric_exponentText h.exponent d)
  have hunsigned : ∀ d ∈ n.whole ++
      (Numeral.fractionText n.fraction ++ Numeral.exponentText n.exponent), isNumeric d = true :=
    fun d hd => (List.mem_append.1 hd).elim (hwhole d) (hrest d)
  rw [Numeral.text_eq]
  rcases h.sign with hsign | hsign
  · obtain ⟨c, digits, hc⟩ := List.exists_cons_of_ne_nil h.whole.1
    rw [hsign, hc]
    refine ⟨c, _, rfl, .inr (h.whole.2 c (hc ▸ List.mem_cons_self)), fun d hd => ?_⟩
    refine hunsigned d ?_
    rw [hc]
    exact List.mem_cons_of_mem c hd
  · rw [hsign]
    exact ⟨'-', _, rfl, .inl rfl, hunsigned⟩

theorem step?_between_of_numeral {c : Char} (h : c = '-' ∨ c.isDigit = true) :
    step? ⟨.between, ts⟩ c = some ⟨.number [c], ts⟩ := by
  rcases h with rfl | h
  · rfl
  · -- no digit is one of the characters that are tried before
    have hne : ∀ d : Char, d.isDigit = false → c ≠ d := by
      rintro d hd rfl
      exact Bool.false_ne_true (hd.symm.trans h)
    simp [step?, start?, isSpace, hne, h]

theorem read?_numeric (read : Text) (ts : List Token) {t : Text}
    (h : ∀ c ∈ t, isNumeric c = true) :
    Lexer.read? ⟨.number read, ts⟩ t = some ⟨.number (t.reverse ++ read), ts⟩ := by
  induction t generalizing read with
  | nil => rfl
  | cons c t ih =>
    have hstep : step? ⟨.number read, ts⟩ c = some ⟨.number (c :: read), ts⟩ := by
      simp [step?, h c List.mem_cons_self]
    rw [read?_cons, hstep, Option.bind_some, ih _ fun d hd => h d (List.mem_cons_of_mem c hd)]
    simp

theorem number?_text {n : Numeral} (h : n.Strict) (hrange : (double? n).isSome) :
    number? n.text = some n := by
  have hsign : n.sign ≠ some '+' := by
    rcases h.sign with h | h <;> simp [h]
  have hfraction : n.fraction ≠ some [] := fun hn => (h.fraction [] hn).1 rfl
  have hleading : n.whole.length = 1 ∨ n.whole.head? ≠ some '0' := h.leading
  have hwhole : n.whole ≠ [] := h.whole.1
  unfold number?
  rw [Numeral.read?_text h]
  simp [hsign, hfraction, hwhole, hleading, hrange]

theorem leads_number {n : Numeral} (h : n.Strict) (hrange : (double? n).isSome)
    (ts : List Token) : Leads ⟨.between, ts⟩ n.text (.number n :: ts) := by
  obtain ⟨c, rest, htext, hc, hrest⟩ := exists_text_eq_cons h
  refine ⟨⟨.number (c :: rest).reverse, ts⟩, ?_, ?_⟩
  · rw [htext, read?_cons, step?_between_of_numeral hc, Option.bind_some, read?_numeric _ _ hrest,
      List.reverse_cons]
  · have hnumber := number?_text h hrange
    simp only [Holds, flush?, List.reverse_reverse, ← htext, hnumber]
    rfl

/-! ### Values -/

/-- What stands between brackets has lines of its own, and the closing bracket ends the last one. -/
theorem leads_bracketed {opening closing : Char} {first last : Token} {t u : Text}
    {vs : List Token} (level : Nat)
    (hopening : step? ⟨.between, ts⟩ opening = some ⟨.between, first :: ts⟩)
    (hclosing : step? ⟨.between, vs⟩ closing = some ⟨.between, last :: vs⟩)
    (ht : Leads ⟨.between, first :: ts⟩ t us)
    (hu : ∀ s : Lexer, s.Holds us → s.Leads u vs) :
    Leads ⟨.between, ts⟩
      (opening :: lineBreak (level + 1) ++ t ++ u ++ lineBreak level ++ [closing]) (last :: vs) := by
  have hholds : Holds ⟨.between, first :: ts⟩ (first :: ts) := rfl
  have hopened : read? ⟨.between, ts⟩ (opening :: lineBreak (level + 1)) =
      some ⟨.between, first :: ts⟩ := by
    rw [read?_cons, hopening]
    exact read?_lineBreak hholds _
  have hclosed : ∀ s : Lexer, s.Holds vs → s.Leads (lineBreak level ++ [closing]) (last :: vs) := by
    intro s hs
    refine .of_read? (read?_lineBreak hs level) ⟨⟨.between, last :: vs⟩, ?_, rfl⟩
    rw [read?_cons, hclosing]
    rfl
  rw [List.append_assoc]
  exact ((Leads.of_read? hopened ht).append hu).append hclosed

mutual

theorem leads_writeAt (level : Nat) (v : Json) (ts : List Token) (h : Legible v.tokens) :
    Leads ⟨.between, ts⟩ (writeAt level v) (v.tokens.reverse ++ ts) :=
  match v with
  | .null => ⟨⟨.word "llun".toList, ts⟩, rfl, rfl⟩
  | .bool true => ⟨⟨.word "eurt".toList, ts⟩, rfl, rfl⟩
  | .bool false => ⟨⟨.word "eslaf".toList, ts⟩, rfl, rfl⟩
  | .number n => by
    obtain ⟨hstrict, hrange⟩ := h n List.mem_cons_self
    exact leads_number hstrict hrange ts
  | .string t => by
    have hholds : Holds ⟨.between, ts⟩ ts := rfl
    exact ⟨_, read?_writeString hholds t, rfl⟩
  | .array [] => ⟨⟨.between, .closeArray :: .openArray :: ts⟩, rfl, rfl⟩
  | .array (item :: items) => by
    have hopening : step? ⟨.between, ts⟩ '[' = some ⟨.between, .openArray :: ts⟩ := rfl
    have hclosing : ∀ vs, step? ⟨.between, vs⟩ ']' = some ⟨.between, .closeArray :: vs⟩ :=
      fun _ => rfl
    have hitem : Legible item.tokens := fun n hn => h n (by simp [Json.tokens, hn])
    have hitems : Legible (tokensOfItems items) := fun n hn => h n (by simp [Json.tokens, hn])
    have hall := leads_bracketed level hopening (hclosing _)
      (leads_writeAt (level + 1) item _ hitem) (leads_writeItems (level + 1) items hitems)
    simpa [writeAt, Json.tokens] using hall
  | .object [] => ⟨⟨.between, .closeObject :: .openObject :: ts⟩, rfl, rfl⟩
  | .object (member :: members) => by
    have hopening : step? ⟨.between, ts⟩ '\x7b' = some ⟨.between, .openObject :: ts⟩ := rfl
    have hclosing : ∀ vs, step? ⟨.between, vs⟩ '\x7d' = some ⟨.between, .closeObject :: vs⟩ :=
      fun _ => rfl
    have hmember : Legible (tokensOfMember member) := fun n hn => h n (by simp [Json.tokens, hn])
    have hmembers : Legible (tokensOfMembers members) := fun n hn =>
      h n (by simp [Json.tokens, hn])
    have hall := leads_bracketed level hopening (hclosing _)
      (leads_writeMember (level + 1) member _ hmember)
      (leads_writeMembers (level + 1) members hmembers)
    simpa [writeAt, Json.tokens] using hall

theorem leads_writeItems (level : Nat) (items : List Json) (h : Legible (tokensOfItems items))
    {ts : List Token} (s : Lexer) (hs : s.Holds ts) :
    s.Leads (writeItems level items) ((tokensOfItems items).reverse ++ ts) :=
  match items with
  | [] => ⟨s, rfl, hs⟩
  | item :: items => by
    have hitem : Legible item.tokens := fun n hn => h n (by simp [tokensOfItems, hn])
    have hitems : Legible (tokensOfItems items) := fun n hn => h n (by simp [tokensOfItems, hn])
    have hfirst := Leads.of_read? (read?_comma_lineBreak hs level) (leads_writeAt level item _ hitem)
    have hall := hfirst.append (leads_writeItems level items hitems)
    simpa [writeItems, tokensOfItems] using hall

theorem leads_writeMember (level : Nat) (member : Text × Json) (ts : List Token)
    (h : Legible (tokensOfMember member)) :
    Leads ⟨.between, ts⟩ (writeMember level member) ((tokensOfMember member).reverse ++ ts) :=
  match member with
  | (name, value) => by
    have hholds : Holds ⟨.between, ts⟩ ts := rfl
    have hvalue : Legible value.tokens := fun n hn => h n (by simp [tokensOfMember, hn])
    have hcolon : read? ⟨.between, .string name :: ts⟩ [':', ' '] =
        some ⟨.between, .colon :: .string name :: ts⟩ := rfl
    have hall := Leads.of_read? (read?_writeString hholds name)
      (.of_read? hcolon (leads_writeAt level value _ hvalue))
    simpa [writeMember, tokensOfMember] using hall

theorem leads_writeMembers (level : Nat) (members : List (Text × Json))
    (h : Legible (tokensOfMembers members)) {ts : List Token} (s : Lexer) (hs : s.Holds ts) :
    s.Leads (writeMembers level members) ((tokensOfMembers members).reverse ++ ts) :=
  match members with
  | [] => ⟨s, rfl, hs⟩
  | member :: members => by
    have hmember : Legible (tokensOfMember member) := fun n hn =>
      h n (by simp [tokensOfMembers, hn])
    have hmembers : Legible (tokensOfMembers members) := fun n hn =>
      h n (by simp [tokensOfMembers, hn])
    have hfirst := Leads.of_read? (read?_comma_lineBreak hs level)
      (leads_writeMember level member _ hmember)
    have hall := hfirst.append (leads_writeMembers level members hmembers)
    simpa [writeMembers, tokensOfMembers] using hall

end

end Lexer

/-- **What is written of a value is cut into the tokens of the value.** -/
theorem lex?_write {v : Json} (h : Legible v.tokens) : lex? v.write = some v.tokens := by
  obtain ⟨s, hread, hholds⟩ := Lexer.leads_writeAt 0 v [] h
  have hfold : v.write.foldlM Lexer.step? {} = some s := hread
  have hflush : s.flush? = some ⟨.between, v.tokens.reverse ++ []⟩ := hholds
  simp [lex?, hfold, hflush]

end TextGrammar.Json
