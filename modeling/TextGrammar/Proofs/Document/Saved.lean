import TextGrammar.Document.Json
import TextGrammar.Proofs.Grammar.Reachable
import TextGrammar.Proofs.Json.Parsed
import TextGrammar.Proofs.Selection

/-!
# Saved documents

A valid document that is written is read back as it is: the same names in the same order, and under
each the definition in its form, a single rule, a list or a list with weights
(`Document.readJson_writeJson`). Names and rules may hold any characters.

The three forms are told apart by the kind of their value, so that a single rule does not become a
list, nor a list without weights one with them. The text of a weight is read back as a numeral in
any case. That the number is the same once more is asked of each weight, because reading a numeral
rounds (see `Json.double?`).
-/

namespace TextGrammar

theorem mapM_eq_some_map {β γ : Type} {f : β → Option γ} {g : β → γ} {xs : List β}
    (h : ∀ x ∈ xs, f x = some (g x)) : xs.mapM f = some (xs.map g) := by
  induction xs with
  | nil => rfl
  | cons x xs ih =>
    rw [List.forall_mem_cons] at h
    simp [List.mapM_cons, h.1, ih h.2]

namespace Definition

variable {d : Definition Float}

/-- Every weight is read back from its number. -/
def Kept (d : Definition Float) : Prop :=
  ∀ weights ∈ d.weights?, ∀ w ∈ weights, Json.double? (Layout.json.ofFloat w) = some w

instance (d : Definition Float) : Decidable d.Kept := by
  unfold Kept
  infer_instance

theorem weightToJson_of_fault? {rules : List Text} {weights : List Float}
    (h : (weighted rules weights).fault? = none) {w : Float} (hw : w ∈ weights) :
    weightToJson w = .number (Layout.json.ofFloat w) := by
  have hfinite : w.isFinite = true := (Bool.and_eq_true_iff.1 (isWeight_of_fault? h w hw)).1
  exact if_pos hfinite

theorem texts?_map_string (rules : List Text) :
    (Json.array (rules.map .string)).texts? = some rules := by
  have htext : ∀ rule ∈ rules, (Json.text? ∘ Json.string) rule = some (id rule) :=
    fun _ _ => rfl
  rw [Json.texts?, List.mapM_map, mapM_eq_some_map htext, List.map_id]

theorem numbers?_map_weightToJson {rules : List Text} {weights : List Float}
    (h : (weighted rules weights).fault? = none) :
    (Json.array (weights.map weightToJson)).numbers? =
      some (weights.map Layout.json.ofFloat) := by
  have hnumber : ∀ w ∈ weights,
      (Json.number? ∘ weightToJson) w = some (Layout.json.ofFloat w) := by
    intro w hw
    rw [Function.comp_apply, weightToJson_of_fault? h hw, Json.number?]
  rw [Json.numbers?, List.mapM_map, mapM_eq_some_map hnumber]

theorem ofJson?_toJson (h : d.fault? = none) (hkept : d.Kept) : ofJson? d.toJson = some d := by
  cases d with
  | single rule => rfl
  | many rules =>
    have htexts := texts?_map_string rules
    rw [Json.texts?] at htexts
    rw [toJson, ofJson?, htexts, Option.map_some]
  | weighted rules weights =>
    have hrules : Json.only? [("rules".toList, .array (rules.map .string)),
        ("weights".toList, .array (weights.map weightToJson))] "rules" =
          some (.array (rules.map .string)) := rfl
    have hweights : Json.only? [("rules".toList, .array (rules.map .string)),
        ("weights".toList, .array (weights.map weightToJson))] "weights" =
          some (.array (weights.map weightToJson)) := rfl
    have hdouble : ∀ w ∈ weights, (Json.double? ∘ Layout.json.ofFloat) w = some (id w) :=
      hkept weights rfl
    have hdoubles : (weights.map Layout.json.ofFloat).mapM Json.double? = some weights := by
      rw [List.mapM_map, mapM_eq_some_map hdouble, List.map_id]
    simp only [toJson, ofJson?, hrules, hweights, texts?_map_string, numbers?_map_weightToJson h,
      hdoubles, Option.bind_eq_bind, Option.bind_some, Option.pure_def]

/-- The numbers in the value of a definition are strict, and in range as they are read back. -/
theorem legible_toJson (h : d.fault? = none) (hkept : d.Kept) :
    Json.Legible d.toJson.tokens := by
  have hstring : ∀ rule : Text, Json.Legible (Json.string rule).tokens := fun _ _ h => by
    simp [Json.tokens] at h
  have hrules : ∀ rules : List Text, Json.Legible (Json.array (rules.map .string)).tokens := by
    refine fun rules => Json.legible_array fun item hitem => ?_
    obtain ⟨rule, -, rfl⟩ := List.mem_map.1 hitem
    exact hstring rule
  cases d with
  | single rule => exact hstring rule
  | many rules => exact hrules rules
  | weighted rules weights =>
    have hweights : Json.Legible (Json.array (weights.map weightToJson)).tokens := by
      refine Json.legible_array fun item hitem => ?_
      obtain ⟨w, hw, rfl⟩ := List.mem_map.1 hitem
      rw [weightToJson_of_fault? h hw]
      intro n hn
      obtain rfl : n = Layout.json.ofFloat w := by simpa [Json.tokens] using hn
      refine ⟨Layout.strict_numeral ?_ _, by rw [hkept weights rfl w hw]; rfl⟩
      rintro _ ⟨⟩
      exact ⟨by simp, by simp⟩
    refine Json.legible_object ?_
    rw [List.forall_mem_cons, List.forall_mem_singleton]
    exact ⟨hrules rules, hweights⟩

theorem height_toJson (d : Definition Float) : d.toJson.height ≤ 2 := by
  have hrules : ∀ rules : List Text, (Json.array (rules.map .string)).height ≤ 1 := by
    refine fun rules => Json.height_array_le fun item hitem => ?_
    obtain ⟨rule, -, rfl⟩ := List.mem_map.1 hitem
    exact Nat.le_refl 0
  cases d with
  | single rule => exact Nat.zero_le 2
  | many rules => exact Nat.le_succ_of_le (hrules rules)
  | weighted rules weights =>
    have hweights : (Json.array (weights.map weightToJson)).height ≤ 1 := by
      refine Json.height_array_le fun item hitem => ?_
      obtain ⟨w, -, rfl⟩ := List.mem_map.1 hitem
      unfold weightToJson
      split_ifs <;> exact Nat.le_refl 0
    refine Json.height_object_le ?_
    rw [List.forall_mem_cons, List.forall_mem_singleton]
    exact ⟨hrules rules, hweights⟩

end Definition

namespace Document

variable {d : Document Float}

theorem ofJson?_toJson (h : ∀ e ∈ d.entries, e.2.fault? = none)
    (hkept : ∀ e ∈ d.entries, e.2.Kept) : ofJson? d.toJson = some d := by
  have hread : ∀ e ∈ d.entries,
      (Definition.ofJson? e.2.toJson).map (e.1, ·) = some (id e) := by
    intro e he
    rw [Definition.ofJson?_toJson (h e he) (hkept e he)]
    rfl
  have hentries : ofJson? d.toJson =
      (d.entries.mapM fun e => (Definition.ofJson? e.2.toJson).map (e.1, ·)).bind
        fun entries => some (Named.ofList entries) := by
    simp only [toJson, ofJson?, List.mapM_map]
    rfl
  rw [hentries, mapM_eq_some_map hread, List.map_id, Option.bind_some, Named.ofList_entries]

/-- **A document that is valid and keeps its weights is read back as it was written.** -/
theorem readJson_writeJson (h : d.validate = .ok ()) (hkept : ∀ e ∈ d.entries, e.2.Kept) :
    readJson d.writeJson = .ok d := by
  have hfaultless := validate_eq_ok.1 h
  have hlegible : Json.Legible d.toJson.tokens := by
    refine Json.legible_object fun member hmember => ?_
    obtain ⟨e, he, rfl⟩ := List.mem_map.1 hmember
    exact Definition.legible_toJson (hfaultless e he) (hkept e he)
  have hthree : d.toJson.height ≤ 2 + 1 := by
    refine Json.height_object_le fun member hmember => ?_
    obtain ⟨e, -, rfl⟩ := List.mem_map.1 hmember
    exact e.2.height_toJson
  have hheight : d.toJson.height ≤ Json.maxNesting := Nat.le_trans hthree (by decide)
  rw [readJson, writeJson, Json.read?_write hlegible hheight, Option.bind_some,
    ofJson?_toJson hfaultless hkept]
  simp only [validated, h, Except.map]

/-- All forms, empty lists included, with names and rules that have to be escaped. -/
def forms : Document Float :=
  .ofList
    [("origin".toList, .single "#\"greeting\"#,\n\t#näme#\\ 🙂".toList),
      ([], .many []),
      ("greeting".toList, .many ["Hello".toList]),
      ("näme\u0007".toList, .weighted ["Ada".toList, "Grace".toList] [3, 0.5]),
      ("none".toList, .weighted [] [])]

theorem readJson_writeJson_forms :
    forms.validate = .ok () ∧ (∀ e ∈ forms.entries, e.2.Kept) ∧
      readJson forms.writeJson = .ok forms := by
  have hfaultless : ∀ e ∈ forms.entries, e.2.fault?.isNone = true := by decide +kernel
  have hvalid : forms.validate = .ok () :=
    validate_eq_ok.2 fun e he => Option.isNone_iff_eq_none.1 (hfaultless e he)
  have hkept : ∀ e ∈ forms.entries, e.2.Kept := by decide +kernel
  exact ⟨hvalid, hkept, readJson_writeJson hvalid hkept⟩

/-- Not every weight is kept: reading may give a neighbour of the number written. -/
example : ¬ (Definition.weighted [[]] [1.602176634e-19]).Kept := by decide +kernel

end Document

end TextGrammar
