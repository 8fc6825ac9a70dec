import TextGrammar.Proofs.Symbols

/-!
# Selections from declared rules

In the table of a document nothing is pushed: every stack is empty, a pop is reported and changes
nothing, and a selection takes one of the rules that are declared for the name, if there are any.
It does find one when the definition is `Definition.Productive`: weights may be zero, and then the
rule is never taken, but one of them has to be positive.

Of pushed rules a selection always takes one, whatever is declared (`Symbols.exists_select_push`).
-/

namespace TextGrammar

variable {α : Type}

/-- The definition has a rule, and a positive weight if it has weights. -/
structure Definition.Productive [Scalar α] (definition : Definition α) : Prop where
  rules : definition.rules ≠ []
  weights : ∀ weights, definition.weights? = some weights →
    ∃ w ∈ weights, Scalar.lt Scalar.zero w = true

/-! ### Tables of documents -/

namespace Symbols

variable {d : Document α} {name : Text} {definition : Definition α}

theorem store_ofDocument (h : d.find? name = some definition) :
    (ofDocument d).store name = declare name definition := by
  simp only [store, ofDocument, Named.find?_mapValues, h, Option.map_some, Option.getD_some]

theorem stack_ofDocument (d : Document α) (name : Text) : (ofDocument d).stack name = [] := by
  unfold stack ofDocument
  rw [Named.find?_mapValues]
  cases d.find? name <;> rfl

theorem pop_ofDocument (d : Document α) (name : Text) :
    (ofDocument d).pop name = ([.popWithoutPush name], ofDocument d) :=
  pop_of_stack_eq_nil (stack_ofDocument d name)

theorem active_declare (name : Text) (definition : Definition α) :
    (declare name definition).active = definition.rules := rfl

end Symbols

/-! ### Picking a rule -/

variable [Scalar α]

theorem Definition.length_eq_of_fault? {rules : List Text} {weights : List α}
    (h : (weighted rules weights).fault? = none) : rules.length = weights.length :=
  Decidable.byContradiction fun hlength => by simp [fault?, hlength] at h

theorem Definition.isWeight_of_fault? {rules : List Text} {weights : List α}
    (h : (weighted rules weights).fault? = none) : ∀ w ∈ weights, isWeight w = true := by
  have hfind : weights.find? (fun w => !isWeight w) = none := by
    unfold fault? at h
    grind
  intro w hw
  simpa using List.find?_eq_none.1 hfind w hw

namespace Store

variable {rules : List Text} {weights : List α} {rule : Text} {value target below : α}

theorem exists_pickUniform (h : rules ≠ []) (value : α) :
    ∃ rule, pickUniform rules value = some rule := by
  have hpos := List.length_pos_iff.2 h
  have hlt : Source.indexOf value rules.length < rules.length := by
    unfold Source.indexOf
    omega
  exact ⟨_, List.getElem?_eq_getElem hlt⟩

theorem mem_of_reach {pairs : List (Text × α)} (h : reach target below pairs = some rule) :
    ∃ w, (rule, w) ∈ pairs := by
  induction pairs generalizing below with
  | nil => cases h
  | cons p pairs ih =>
    obtain ⟨r, w⟩ := p
    simp only [reach] at h
    split at h
    · cases h
      exact ⟨w, List.mem_cons_self⟩
    · obtain ⟨w', hw⟩ := ih h
      exact ⟨w', List.mem_cons_of_mem _ hw⟩

theorem mem_of_pickWeighted (h : pickWeighted rules weights value = some rule) : rule ∈ rules := by
  simp only [pickWeighted] at h
  split at h
  · rename_i hreach
    cases h
    obtain ⟨w, hw⟩ := mem_of_reach hreach
    exact (List.of_mem_zip hw).1
  · obtain ⟨p, hp, rfl⟩ := Option.map_eq_some_iff.1 h
    have hmem := List.mem_reverse.1 (List.mem_of_find?_eq_some hp)
    exact (List.of_mem_zip hmem).1

/-- If the value reaches none of the rules, the last one of positive weight is there. -/
theorem exists_pickWeighted (hlength : rules.length = weights.length)
    (h : ∃ w ∈ weights, Scalar.lt Scalar.zero w = true) (value : α) :
    ∃ rule, pickWeighted rules weights value = some rule := by
  obtain ⟨w, hw, hpos⟩ := h
  simp only [pickWeighted]
  split
  · rename_i rule _
    exact ⟨rule, rfl⟩
  · -- the weight belongs to a rule
    obtain ⟨i, hi, rfl⟩ := List.mem_iff_getElem.1 hw
    have hpair : (rules[i], weights[i]) ∈ (rules.zip weights).reverse := by
      rw [List.mem_reverse, ← List.getElem_zip (h := by simp; omega)]
      exact List.getElem_mem _
    have hfound := List.find?_isSome (p := fun p : Text × α => Scalar.lt Scalar.zero p.2).2
      ⟨_, hpair, hpos⟩
    obtain ⟨p, hp⟩ := Option.isSome_iff_exists.1 hfound
    exact ⟨p.1, by simp only [hp, Option.map_some]⟩

theorem mem_active_of_pick {s : Store α} (h : s.pick value = some rule) : rule ∈ s.active := by
  obtain ⟨name, base, weights, overrides, dynamic⟩ := s
  cases overrides with
  | cons rules rest => exact List.mem_of_getElem? h
  | nil =>
    cases weights with
    | none => exact List.mem_of_getElem? h
    | some weights => exact mem_of_pickWeighted h

theorem mem_active_of_select {s : Store α} {source : Source α}
    (h : (s.select source).1 = some rule) : rule ∈ s.active := by
  unfold select at h
  split at h
  · cases h
  · exact mem_active_of_pick h

end Store

namespace Symbols

theorem exists_select_push {rules : List Text} (h : rules ≠ []) (t : Symbols α)
    (fallbacks : List (Symbols α)) (name : Text) (source : Source α) :
    ∃ rule, rules[(source.index rules.length).1]? = some rule ∧
      (t.push name rules true).select fallbacks name source =
        ⟨some rule, [], (source.index rules.length).2⟩ := by
  let s := (t.store name).push rules
  have hactive : (t.push name rules true).active? name = some s := by
    rw [active?_eq, store_push, if_pos rfl]
    exact if_neg (by simpa [Store.active, Store.push] using h)
  obtain ⟨rule, hrule⟩ := Store.exists_pickUniform h source.next.1
  have hselect : s.select source = (some rule, source.next.2) := by
    have hnonempty : s.active.isEmpty = false := by simpa [s, Store.active, Store.push] using h
    have hpick : s.pick source.next.1 = some rule := hrule
    simp only [Store.select, hnonempty, Bool.false_eq_true, if_false, hpick]
  refine ⟨rule, hrule, ?_⟩
  simp only [select, resolve?, hactive, Option.some_or, hselect]
  rfl

variable {d : Document α} {name : Text} {definition : Definition α}

theorem exists_select_declare (name : Text) (hfault : definition.fault? = none)
    (hproductive : definition.Productive) (source : Source α) :
    ∃ rule ∈ definition.rules, (declare name definition).select source = (some rule, source.next.2) := by
  have hactive : (declare name definition).active.isEmpty = false := by
    simpa [active_declare] using hproductive.rules
  obtain ⟨rule, hrule⟩ : ∃ rule, (declare name definition).pick source.next.1 = some rule := by
    cases definition with
    | single rule => exact Store.exists_pickUniform hproductive.rules _
    | many rules => exact Store.exists_pickUniform hproductive.rules _
    | weighted rules weights =>
      exact Store.exists_pickWeighted (Definition.length_eq_of_fault? hfault)
        (hproductive.weights weights rfl) _
  refine ⟨rule, Store.mem_active_of_pick hrule, ?_⟩
  simp only [Store.select, hactive, Bool.false_eq_true, if_false, hrule]

theorem exists_select_ofDocument (hfind : d.find? name = some definition)
    (hfault : definition.fault? = none) (hproductive : definition.Productive)
    (fallbacks : List (Symbols α)) (source : Source α) :
    ∃ rule ∈ definition.rules,
      (ofDocument d).select fallbacks name source = ⟨some rule, [], source.next.2⟩ := by
  have hactive : (ofDocument d).active? name = some (declare name definition) := by
    rw [active?_eq, store_ofDocument hfind, active_declare]
    simpa using hproductive.rules
  obtain ⟨rule, hrule, hselect⟩ := exists_select_declare name hfault hproductive source
  refine ⟨rule, hrule, ?_⟩
  simp only [select, resolve?, hactive, Option.some_or, hselect]

/-- Without fallbacks a rule that is selected is declared, or it is the placeholder. -/
theorem rule_select_ofDocument {source : Source α} {rule : Text}
    (h : ((ofDocument d).select [] name source).rule = some rule) :
    (∃ definition, d.find? name = some definition ∧ rule ∈ definition.rules) ∨
      rule = Text.placeholder name := by
  simp only [select, resolve?, List.findSome?_nil, Option.or_none] at h
  cases hactive : (ofDocument d).active? name with
  | none =>
    rw [hactive] at h
    exact .inr (Option.some.inj h).symm
  | some s =>
    obtain ⟨definition, hfind, rfl⟩ : ∃ definition, d.find? name = some definition ∧
        declare name definition = s := by
      have hfind := (Option.filter_eq_some_iff.1 hactive).1
      rwa [ofDocument, Named.find?_mapValues, Option.map_eq_some_iff] at hfind
    have hselect : ((declare name definition).select source).1 = some rule := by
      simp only [hactive] at h
      split at h <;> simp_all
    exact .inl ⟨definition, hfind, Store.mem_active_of_select hselect⟩

end Symbols

end TextGrammar
