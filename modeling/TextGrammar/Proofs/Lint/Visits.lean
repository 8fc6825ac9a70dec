import Mathlib.Logic.Basic
import Mathlib.Logic.Relation
import TextGrammar.Lint
import TextGrammar.Proofs.Markup.Parts

/-!
# What a check looks at

To check a rule is to walk through it. `Section.parts` is where the walk goes next, `Section.Visits`
is the walk, and `Section.own` is what a part adds to the references of the rule. A rule refers to
what the parts that are visited add, and to nothing else (`References.mem_ofRule`); that the walk is
bounded by the length of the rule never shows, since every section is shorter than its rule.

So the findings of a check can be spoken of part by part (`Document.Visits`).
-/

namespace TextGrammar

/-! ### The walk -/

namespace Section

/-- The parts that a check looks at next. -/
def parts (separator : Char) (x : Section) : List Section :=
  match x.kind with
  | .plain => []
  | .unparsed => (scan x.raw).sections
  | .tag =>
    match Tag.read x.raw with
    | .clause clause => clause.preactions
    | .silent => [⟨.unparsed, x.raw⟩]
    | .ambiguous => []
  | .action =>
    match Action.read x.raw with
    | .push _ rules => (Alternatives.split separator rules).map (⟨.unparsed, ·⟩)
    | .pop _ => []
    | .evaluate rule => [⟨.unparsed, rule⟩]

/-- What a part refers to, without the parts in it. -/
def own (x : Section) : References :=
  match x.kind with
  | .plain => {}
  | .unparsed => { problems := (scan x.raw).problems }
  | .tag =>
    match Tag.read x.raw with
    | .clause clause => { tags := [clause.symbol], problems := clause.problems }
    | .silent => {}
    | .ambiguous => { ambiguous := [x.raw] }
  | .action =>
    match Action.read x.raw with
    | .push target _ => { pushes := [target] }
    | .pop _ | .evaluate _ => {}

/-- A check that looks at `x` comes to look at `y`. -/
def Visits (separator : Char) (x y : Section) : Prop :=
  Relation.ReflTransGen (fun a b => b ∈ a.parts separator) x y

variable {separator : Char} {x y : Section} {raw : Text}

theorem own_of_clause {clause : Tag.Clause} (h : Tag.read raw = .clause clause) :
    own ⟨.tag, raw⟩ = { tags := [clause.symbol], problems := clause.problems } := by
  simp only [own, h]

theorem own_of_ambiguous (h : Tag.read raw = .ambiguous) :
    own ⟨.tag, raw⟩ = { ambiguous := [raw] } := by
  simp only [own, h]

theorem own_of_push {target rules : Text} (h : Action.read raw = .push target rules) :
    own ⟨.action, raw⟩ = { pushes := [target] } := by
  simp only [own, h]

theorem exists_clause_of_mem_tags {symbol : Text} (h : symbol ∈ x.own.tags) :
    ∃ clause, x.kind = .tag ∧ Tag.read x.raw = .clause clause ∧ clause.symbol = symbol := by
  obtain ⟨kind, raw⟩ := x
  cases kind with
  | plain | unparsed => cases h
  | action =>
    simp only [own] at h
    cases hread : Action.read raw <;> simp [hread] at h
  | tag =>
    simp only [own] at h
    cases hread : Tag.read raw with
    | ambiguous | silent => simp [hread] at h
    | clause clause =>
      simp only [hread, List.mem_singleton] at h
      exact ⟨clause, rfl, rfl, h.symm⟩

theorem kind_ne_of_mem_parts (h : y ∈ parts separator ⟨.unparsed, raw⟩) : y.kind ≠ .unparsed :=
  kind_ne_of_mem_scan h

/-- A set of parts that the walk cannot leave holds all that it visits. -/
theorem Visits.of_closed {p : Section → Prop} (h : x.Visits separator y) (hx : p x)
    (hp : ∀ a, p a → ∀ b ∈ a.parts separator, p b) : p y := by
  induction h with
  | refl => exact hx
  | tail _ hmem ih => exact hp _ ih _ hmem

end Section

/-! ### References along the walk -/

namespace References

/-- One of the lists that references consist of. -/
structure Additive {β : Type} (f : References → List β) : Prop where
  empty : f {} = []
  append : ∀ a b, f (References.append a b) = f a ++ f b

theorem additive_tags : Additive tags := ⟨rfl, fun _ _ => rfl⟩

theorem additive_pushes : Additive pushes := ⟨rfl, fun _ _ => rfl⟩

theorem additive_problems : Additive problems := ⟨rfl, fun _ _ => rfl⟩

theorem additive_ambiguous : Additive ambiguous := ⟨rfl, fun _ _ => rfl⟩

/-- The references of any part: those of a rule, or of one of its sections. -/
def ofPart (separator : Char) (steps : Nat) (x : Section) : References :=
  match x.kind with
  | .unparsed => ofText (ofSection separator steps) x.raw
  | .plain | .tag | .action => ofSection separator steps x

variable {β : Type} {f : References → List β} {separator : Char} {steps : Nat} {x : Section} {v : β}

theorem ofPart_of_kind_ne (h : x.kind ≠ .unparsed) :
    ofPart separator steps x = ofSection separator steps x := by
  unfold ofPart
  cases hk : x.kind <;> simp_all

theorem Additive.mem_concat (hf : Additive f) {rs : List References} :
    v ∈ f (concat rs) ↔ ∃ r ∈ rs, v ∈ f r := by
  induction rs with
  | nil => simp [concat, hf.empty]
  | cons r rs ih =>
    have hcons : f (concat (r :: rs)) = f r ++ f (concat rs) := hf.append r (concat rs)
    simp only [hcons, List.mem_append, ih, List.mem_cons, exists_eq_or_imp]

theorem Additive.mem_append_concat (hf : Additive f) (own : References) {xs : List Section}
    (hxs : ∀ y ∈ xs, y.kind ≠ .unparsed) :
    v ∈ f (own ++ concat (xs.map (ofSection separator steps))) ↔
      v ∈ f own ∨ ∃ y ∈ xs, v ∈ f (ofPart separator steps y) := by
  have happend : f (own ++ concat (xs.map (ofSection separator steps))) =
      f own ++ f (concat (xs.map (ofSection separator steps))) := hf.append _ _
  rw [happend, List.mem_append, hf.mem_concat]
  refine or_congr_right ⟨?_, ?_⟩
  · rintro ⟨r, hr, hv⟩
    obtain ⟨y, hy, rfl⟩ := List.mem_map.1 hr
    exact ⟨y, hy, by rwa [ofPart_of_kind_ne (hxs y hy)]⟩
  · rintro ⟨y, hy, hv⟩
    exact ⟨_, List.mem_map_of_mem hy, by rwa [← ofPart_of_kind_ne (hxs y hy)]⟩

theorem Additive.mem_ofPart_rule (hf : Additive f) {rule : Text} :
    v ∈ f (ofPart separator steps ⟨.unparsed, rule⟩) ↔
      v ∈ f (Section.own ⟨.unparsed, rule⟩) ∨
        ∃ y ∈ Section.parts separator ⟨.unparsed, rule⟩, v ∈ f (ofPart separator steps y) :=
  hf.mem_append_concat _ fun _ => kind_ne_of_mem_scan

theorem Additive.mem_ofPart_section (hf : Additive f) (hkind : x.kind ≠ .unparsed) :
    v ∈ f (ofPart separator (steps + 1) x) ↔
      v ∈ f x.own ∨ ∃ y ∈ x.parts separator, v ∈ f (ofPart separator steps y) := by
  obtain ⟨kind, raw⟩ := x
  cases kind with
  | unparsed => exact absurd rfl hkind
  | plain => simp [ofPart, ofSection, Section.own, Section.parts, hf.empty]
  | tag =>
    simp only [ofPart, ofSection, Section.own, Section.parts]
    cases hread : Tag.read raw with
    | ambiguous => simp
    | silent => simp [hf.empty]
    | clause clause =>
      refine hf.mem_append_concat _ fun p hp => ?_
      exact kind_ne_of_mem_scan ((Tag.of_read_eq_clause hread).2 p hp).1
  | action =>
    simp only [ofPart, ofSection, Section.own, Section.parts]
    cases hread : Action.read raw with
    | pop => simp [hf.empty]
    | evaluate => simp [hf.empty]
    | push target rules =>
      have happend : f ({ pushes := [target] } ++ concat ((Alternatives.split separator rules).map
          (ofText (ofSection separator steps)))) = f { pushes := [target] } ++
            f (concat ((Alternatives.split separator rules).map
              (ofText (ofSection separator steps)))) := hf.append _ _
      simp [happend, hf.mem_concat]

theorem Additive.exists_visits (hf : Additive f) (h : v ∈ f (ofPart separator steps x)) :
    ∃ y, x.Visits separator y ∧ v ∈ f y.own := by
  -- a step is used up at sections only, so the induction goes from section to section
  have hsection : ∀ steps x, x.kind ≠ .unparsed → v ∈ f (ofPart separator steps x) →
      ∃ y, x.Visits separator y ∧ v ∈ f y.own := by
    intro steps
    induction steps with
    | zero =>
      intro x hkind h
      rw [ofPart_of_kind_ne hkind, ofSection, hf.empty] at h
      cases h
    | succ steps ih =>
      intro x hkind h
      rcases (hf.mem_ofPart_section hkind).1 h with h | ⟨y, hy, h⟩
      · exact ⟨x, .refl, h⟩
      · by_cases hrule : y.kind = .unparsed
        · obtain ⟨kind, rule⟩ := y
          obtain rfl : kind = .unparsed := hrule
          rcases hf.mem_ofPart_rule.1 h with h | ⟨z, hz, h⟩
          · exact ⟨_, .single hy, h⟩
          · obtain ⟨w, hw, h⟩ := ih z (Section.kind_ne_of_mem_parts hz) h
            exact ⟨w, .head hy (.head hz hw), h⟩
        · obtain ⟨w, hw, h⟩ := ih y hrule h
          exact ⟨w, .head hy hw, h⟩
  by_cases hrule : x.kind = .unparsed
  · obtain ⟨kind, rule⟩ := x
    obtain rfl : kind = .unparsed := hrule
    rcases hf.mem_ofPart_rule.1 h with h | ⟨y, hy, h⟩
    · exact ⟨_, .refl, h⟩
    · obtain ⟨w, hw, h⟩ := hsection steps y (Section.kind_ne_of_mem_parts hy) h
      exact ⟨w, .head hy hw, h⟩
  · exact hsection steps x hrule h

/-- So many steps are enough to get to everything in the part. -/
def Enough (steps : Nat) (x : Section) : Prop :=
  match x.kind with
  | .plain => True
  | .unparsed => x.raw.length < steps + 2
  | .tag | .action => x.raw.length < steps

theorem Enough.of_mem_scan {rule : Text} (h : rule.length < steps + 2)
    (hx : x ∈ (scan rule).sections) : Enough steps x := by
  obtain ⟨kind, raw⟩ := x
  cases kind with
  | plain => trivial
  | unparsed => exact absurd rfl (kind_ne_of_mem_scan hx)
  | tag | action =>
    have hle := length_raw_add_two_le hx (by simp)
    simp only [Enough] at hle ⊢
    omega

theorem Enough.of_mem_parts {y : Section} (h : Enough (steps + 1) x) (hkind : x.kind ≠ .unparsed)
    (hy : y ∈ x.parts separator) : Enough steps y := by
  obtain ⟨kind, raw⟩ := x
  cases kind with
  | unparsed => exact absurd rfl hkind
  | plain => simp [Section.parts] at hy
  | tag =>
    simp only [Enough] at h
    simp only [Section.parts] at hy
    cases hread : Tag.read raw with
    | ambiguous => simp [hread] at hy
    | silent =>
      simp only [hread, List.mem_singleton] at hy
      subst hy
      simp only [Enough]
      omega
    | clause clause =>
      simp only [hread] at hy
      exact .of_mem_scan (by omega) ((Tag.of_read_eq_clause hread).2 y hy).1
  | action =>
    simp only [Enough] at h
    simp only [Section.parts] at hy
    cases hread : Action.read raw with
    | pop => simp [hread] at hy
    | evaluate rule =>
      simp only [hread, List.mem_singleton] at hy
      subst hy
      have := Action.eq_of_read_eq_evaluate hread
      simp only [Enough, this]
      omega
    | push target rules =>
      simp only [hread, List.mem_map] at hy
      obtain ⟨text, htext, rfl⟩ := hy
      have hlt := Action.length_lt_of_read_eq_push hread
      have hle := Alternatives.length_le_of_mem_split htext
      simp only [Enough]
      omega

/-- With enough steps nothing that is visited is left out. -/
theorem Additive.mem_of_visits (hf : Additive f) {y : Section} (h : x.Visits separator y)
    (hv : v ∈ f y.own) : ∀ {steps}, Enough steps x → v ∈ f (ofPart separator steps x) := by
  induction h using Relation.ReflTransGen.head_induction_on with
  | refl =>
    intro steps hsteps
    obtain ⟨kind, raw⟩ := y
    cases kind with
    | unparsed => exact hf.mem_ofPart_rule.2 (.inl hv)
    | plain => simp [Section.own, hf.empty] at hv
    | tag | action =>
      obtain ⟨steps, rfl⟩ : ∃ n, steps = n + 1 :=
        ⟨steps - 1, by simp only [Enough] at hsteps; omega⟩
      exact (hf.mem_ofPart_section (by simp)).2 (.inl hv)
  | @head x z hz _ ih =>
    intro steps hsteps
    obtain ⟨kind, raw⟩ := x
    cases kind with
    | unparsed => exact hf.mem_ofPart_rule.2 (.inr ⟨z, hz, ih (.of_mem_scan hsteps hz)⟩)
    | plain => simp [Section.parts] at hz
    | tag | action =>
      obtain ⟨steps, rfl⟩ : ∃ n, steps = n + 1 :=
        ⟨steps - 1, by simp only [Enough] at hsteps; omega⟩
      exact (hf.mem_ofPart_section (by simp)).2
        (.inr ⟨z, hz, ih (hsteps.of_mem_parts (by simp) hz)⟩)

/-- **A rule refers to what the parts that are visited add.** -/
theorem Additive.mem_ofRule (hf : Additive f) {rule : Text} :
    v ∈ f (ofRule separator rule) ↔
      ∃ y, Section.Visits separator ⟨.unparsed, rule⟩ y ∧ v ∈ f y.own := by
  have hrule : ofRule separator rule = ofPart separator (rule.length + 1) ⟨.unparsed, rule⟩ := rfl
  rw [hrule]
  refine ⟨hf.exists_visits, fun ⟨y, hy, hv⟩ => hf.mem_of_visits hy hv ?_⟩
  simp only [Enough]
  omega

end References

/-! ### Findings -/

variable {α : Type}

/-- The parts that are looked at when a document is checked. -/
def Document.Visits (d : Document α) (separator : Char) (x : Section) : Prop :=
  ∃ e ∈ d.entries, ∃ rule ∈ e.2.rules, Section.Visits separator ⟨.unparsed, rule⟩ x

/-- All parts that are visited are in a list that holds the rules and that the walk cannot leave. -/
theorem Document.mem_of_visits {d : Document α} {separator : Char} {xs : List Section}
    (hrules : ∀ e ∈ d.entries, ∀ rule ∈ e.2.rules, ⟨.unparsed, rule⟩ ∈ xs)
    (hparts : ∀ a ∈ xs, ∀ b ∈ a.parts separator, b ∈ xs) (x : Section) (hx : d.Visits separator x) :
    x ∈ xs := by
  obtain ⟨e, he, rule, hrule, hvisits⟩ := hx
  exact hvisits.of_closed (p := (· ∈ xs)) (hrules e he rule hrule) hparts

namespace Lint

variable {d : Document α} {origin : Text} {separator : Char}

theorem mem_survey {β : Type} {f : References → List β} (hf : References.Additive f) {v : β} :
    v ∈ (survey d separator).flatMap (fun e => e.2.flatMap f) ↔
      ∃ x, d.Visits separator x ∧ v ∈ f x.own := by
  simp only [survey, List.mem_flatMap, List.mem_map, exists_exists_and_eq_and, hf.mem_ofRule,
    Document.Visits]
  constructor
  · rintro ⟨e, he, rule, hrule, x, hx, hv⟩
    exact ⟨x, ⟨e, he, rule, hrule, hx⟩, hv⟩
  · rintro ⟨x, ⟨e, he, rule, hrule, hx⟩, hv⟩
    exact ⟨e, he, rule, hrule, x, hx, hv⟩

theorem mem_tags_survey {name : Text} :
    name ∈ (survey d separator).tags ↔ ∃ x, d.Visits separator x ∧ name ∈ x.own.tags :=
  mem_survey References.additive_tags

theorem pushes_own_of_survey (h : (survey d separator).pushes = []) {x : Section}
    (hx : d.Visits separator x) : x.own.pushes = [] := by
  rw [List.eq_nil_iff_forall_not_mem] at h ⊢
  exact fun name hname => h name ((mem_survey References.additive_pushes).2 ⟨x, hx, hname⟩)

theorem mem_errors {error : Error} :
    error ∈ (lint d origin separator).errors ↔ ∃ e ∈ d.entries,
      error ∈ symbolErrors
        (fun name => d.contains name || (survey d separator).pushes.contains name) e.1
        (e.2.rules.map (References.ofRule separator)) := by
  simp only [lint, survey, List.mem_flatMap, List.mem_map, exists_exists_and_eq_and]

theorem mem_errors_of_rule {e : Text × Definition α} (he : e ∈ d.entries) {rule : Text}
    (hrule : rule ∈ e.2.rules) {error : Error}
    (h : error ∈ ruleErrors
      (fun name => d.contains name || (survey d separator).pushes.contains name) e.1
      (References.ofRule separator rule)) :
    error ∈ (lint d origin separator).errors :=
  mem_errors.2
    ⟨e, he, List.mem_append_left _ (List.mem_flatMap.2 ⟨_, List.mem_map_of_mem hrule, h⟩)⟩

section Parts

variable {x : Section} (hx : d.Visits separator x)

include hx

theorem exists_badSyntax {problem : Diagnostic} (h : problem ∈ x.own.problems) :
    ∃ symbol, .badSyntax symbol problem ∈ (lint d origin separator).errors := by
  obtain ⟨e, he, rule, hrule, hvisits⟩ := hx
  have hmem := References.additive_problems.mem_ofRule.2 ⟨x, hvisits, h⟩
  exact ⟨e.1, mem_errors_of_rule he hrule (List.mem_append_left _ (List.mem_map_of_mem hmem))⟩

theorem exists_ambiguousTag {tag : Text} (h : tag ∈ x.own.ambiguous) :
    ∃ symbol, .ambiguousTag symbol tag ∈ (lint d origin separator).errors := by
  obtain ⟨e, he, rule, hrule, hvisits⟩ := hx
  have hmem := References.additive_ambiguous.mem_ofRule.2 ⟨x, hvisits, h⟩
  exact ⟨e.1, mem_errors_of_rule he hrule
    (List.mem_append_right _ (List.mem_append_left _ (List.mem_map_of_mem hmem)))⟩

theorem exists_missingReference {tag : Text} (h : tag ∈ x.own.tags) (hdeclared : tag ∉ d.names)
    (hpushed : tag ∉ (survey d separator).pushes) :
    ∃ symbol, .missingReference symbol tag ∈ (lint d origin separator).errors := by
  obtain ⟨e, he, rule, hrule, hvisits⟩ := hx
  have hmem := References.additive_tags.mem_ofRule.2 ⟨x, hvisits, h⟩
  refine ⟨e.1, mem_errors_of_rule he hrule
    (List.mem_append_right _ (List.mem_append_right _ (List.mem_map_of_mem ?_)))⟩
  simp [hmem, Named.contains, hdeclared, hpushed]

theorem not_mem_tags_of_unreferenced {symbol : Text}
    (h : .unreferenced symbol ∈ (lint d origin separator).warnings) : symbol ∉ x.own.tags := by
  intro hmem
  have htags := mem_tags_survey.2 ⟨x, hx, hmem⟩
  simp only [lint, List.mem_flatMap, symbolWarnings, List.mem_append] at h
  obtain ⟨e, -, h | h⟩ := h
  · split at h <;> simp at h
  · split at h
    · rename_i hwarn
      obtain rfl : symbol = e.1 := by simpa using h
      simp [htags] at hwarn
    · simp at h

end Parts

/-- A symbol without exit is declared, and in each of its rules some part refers to it. -/
theorem exists_entry_of_noExit {symbol : Text}
    (h : .noExit symbol ∈ (lint d origin separator).errors) :
    ∃ definition, (symbol, definition) ∈ d.entries ∧ definition.rules ≠ [] ∧
      ∀ rule ∈ definition.rules,
        ∃ x, Section.Visits separator ⟨.unparsed, rule⟩ x ∧ symbol ∈ x.own.tags := by
  obtain ⟨⟨name, definition⟩, he, h⟩ := mem_errors.1 h
  rcases List.mem_append.1 h with h | h
  · simp [ruleErrors] at h
  · split at h
    · rename_i hexit
      obtain rfl : symbol = name := by simpa using h
      simp only [hasNoExit, Bool.and_eq_true, List.all_map, List.all_eq_true, Function.comp,
        List.contains_iff_mem] at hexit
      refine ⟨definition, he, by simpa using hexit.1, fun rule hrule => ?_⟩
      exact References.additive_tags.mem_ofRule.1 (hexit.2 rule hrule)
    · simp at h

end Lint

end TextGrammar
