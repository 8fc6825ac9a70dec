import TextGrammar.Proofs.Named
import TextGrammar.Symbols

/-!
# Stores and stacks

`Symbols.store` is the view of a table that an expansion has: the store of a name, and a store that
a push has made and a pop has emptied if the name is not in the table. Selections, pushes and pops
cannot tell these two apart.

`Symbols.stack` is the part of it that pushes and pops act on: the lists pushed over a name. A push
puts a list on one stack and a pop takes one from it; a pop is reported exactly when the stack is
empty, and then it changes nothing.
-/

namespace TextGrammar.Symbols

variable {α : Type}

/-- The lists pushed over a name, the last one first. -/
def stack (t : Symbols α) (name : Text) : List (List Text) :=
  ((t.find? name).map (·.overrides)).getD []

/-- The store of a name; one that is not there is as good as one that was pushed and emptied. -/
def store (t : Symbols α) (name : Text) : Store α :=
  (t.find? name).getD { name, base := [], dynamic := true }

theorem stack_eq_overrides (t : Symbols α) (name : Text) :
    t.stack name = (t.store name).overrides := by
  unfold stack store
  cases t.find? name <;> rfl

theorem find?_push (t : Symbols α) (name : Text) (rules : List Text) (dynamic : Bool)
    (key : Text) :
    (t.push name rules dynamic).find? key =
      if key = name then
        some (((t.find? name).map (·.push rules)).getD
          (if dynamic then .pushed name rules else { name, base := rules }))
      else t.find? key := by
  unfold push
  split
  · rename_i h
    obtain ⟨s, hs⟩ := Named.contains_iff.1 h
    rw [Named.find?_modify, hs]
    by_cases hkey : key = name
    · rw [if_pos hkey, if_pos hkey, hkey, hs]; rfl
    · rw [if_neg hkey, if_neg hkey]
  · rename_i h
    have hnone : t.find? name = none := by
      rw [Named.contains_iff] at h
      simpa [Option.eq_none_iff_forall_ne_some] using h
    rw [Named.find?_insert, hnone]
    rfl

theorem store_push (t : Symbols α) (name : Text) (rules : List Text) (key : Text) :
    (t.push name rules true).store key =
      if key = name then (t.store name).push rules else t.store key := by
  unfold store
  rw [find?_push]
  by_cases h : key = name
  · rw [if_pos h, if_pos h]
    -- a store that a push makes is the empty one with the rules pushed
    cases t.find? name <;> rfl
  · rw [if_neg h, if_neg h]

theorem stack_push (t : Symbols α) (name : Text) (rules : List Text) (key : Text) :
    (t.push name rules true).stack key =
      if key = name then rules :: t.stack key else t.stack key := by
  simp only [stack_eq_overrides, store_push]
  split_ifs with h
  · rw [h]; rfl
  · rfl

theorem pop_of_stack_eq_nil {t : Symbols α} {name : Text} (h : t.stack name = []) :
    t.pop name = ([.popWithoutPush name], t) := by
  unfold stack at h
  unfold pop
  split
  · rename_i hs
    simp [hs] at h
  · rfl

theorem pop_of_stack_eq_cons {t : Symbols α} {name : Text} {rules : List Text}
    {rest : List (List Text)} (h : t.stack name = rules :: rest) :
    t.pop name = ([], t.modify name (·.pop)) := by
  unfold stack at h
  unfold pop
  split
  · rfl
  · rename_i hs
    cases hf : t.find? name with
    | none => simp [hf] at h
    | some s =>
      rw [hf] at h
      obtain ⟨key, base, weights, overrides, dynamic⟩ := s
      simp only [Option.map_some, Option.getD_some] at h
      exact absurd (h ▸ hf) (hs _ _ _ _ _ _)

theorem pop_fst (t : Symbols α) (name : Text) :
    (t.pop name).1 = if t.stack name = [] then [.popWithoutPush name] else [] := by
  cases h : t.stack name with
  | nil => rw [pop_of_stack_eq_nil h]; rfl
  | cons rules rest => rw [pop_of_stack_eq_cons h]; rfl

theorem find?_pop (t : Symbols α) (name key : Text) :
    (t.pop name).2.find? key =
      if key = name then (t.find? key).map (·.pop) else t.find? key := by
  cases h : t.stack name with
  | nil =>
    rw [pop_of_stack_eq_nil h]
    split_ifs with hkey
    · subst hkey
      unfold stack at h
      cases hs : t.find? key with
      | none => rfl
      | some s =>
        -- without pushed lists a pop leaves the store as it is
        rw [hs] at h
        obtain ⟨key, base, weights, overrides, dynamic⟩ := s
        obtain rfl : overrides = [] := h
        rfl
    · rfl
  | cons rules rest => rw [pop_of_stack_eq_cons h, Named.find?_modify]

theorem store_pop (t : Symbols α) (name key : Text) :
    (t.pop name).2.store key = if key = name then (t.store name).pop else t.store key := by
  unfold store
  rw [find?_pop]
  split_ifs with hkey
  · rw [hkey]
    cases t.find? name <;> rfl
  · rfl

theorem stack_pop (t : Symbols α) (name key : Text) :
    (t.pop name).2.stack key = if key = name then (t.stack key).tail else t.stack key := by
  simp only [stack_eq_overrides, store_pop]
  split_ifs with h
  · rw [h]; rfl
  · rfl

theorem store_clear (t : Symbols α) (name : Text) :
    t.clear.store name = (t.store name).clear := by
  unfold store clear
  rw [Named.find?_mapValues]
  cases t.find? name <;> rfl

theorem active?_eq (t : Symbols α) (name : Text) :
    t.active? name = if (t.store name).active.isEmpty then none else some (t.store name) := by
  unfold active? store
  cases t.find? name with
  | none => rfl
  | some s => cases h : s.active <;> simp [Option.filter, h]

theorem unresolved_eq (t : Symbols α) (name : Text) :
    t.unresolved name =
      if (t.store name).dynamic then .missingSymbol name else .emptySymbol name := by
  unfold unresolved store
  cases t.find? name with
  | none => rfl
  | some s =>
    obtain ⟨key, base, weights, overrides, dynamic⟩ := s
    cases dynamic <;> rfl

theorem active_of_resolve? {t : Symbols α} {fallbacks : List (Symbols α)} {name : Text}
    {store : Store α} (h : t.resolve? fallbacks name = some store) :
    store.active.isEmpty = false := by
  have hactive : ∀ u : Symbols α, u.active? name = some store → store.active.isEmpty = false := by
    intro u hu
    simpa using (Option.filter_eq_some_iff.1 hu).2
  rcases Option.or_eq_some_iff.1 h with hlocal | ⟨-, hfallback⟩
  · exact hactive t hlocal
  · obtain ⟨u, -, hu⟩ := List.exists_of_findSome?_eq_some hfallback
    exact hactive u hu

variable [Scalar α] {t u : Symbols α} {fallbacks : List (Symbols α)} {name : Text}

/-- A selection sees no more of a table than its stores. -/
theorem select_congr (h : t.store name = u.store name)
    (fallbacks : List (Symbols α)) (source : Source α) :
    t.select fallbacks name source = u.select fallbacks name source := by
  simp only [select, resolve?, active?_eq, unresolved_eq, h]

theorem select_of_unresolved (h : t.resolve? fallbacks name = none) (source : Source α) :
    t.select fallbacks name source =
      ⟨some (Text.placeholder name), [t.unresolved name], source⟩ := by
  simp only [select, h]

/-- From a store a single value is drawn, and a problem is that no rule of it is picked. -/
theorem select_of_resolved {store : Store α} (h : t.resolve? fallbacks name = some store)
    (source : Source α) :
    t.select fallbacks name source =
      ⟨store.pick source.next.1,
        if (store.pick source.next.1).isNone then [.emptySymbol name] else [],
        source.next.2⟩ := by
  simp only [select, h, Store.select, active_of_resolve? h, Bool.false_eq_true, if_false]
  cases store.pick source.next.1 <;> rfl

end TextGrammar.Symbols
