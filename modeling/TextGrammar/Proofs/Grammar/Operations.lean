import TextGrammar.Grammar.Plan
import TextGrammar.Proofs.Exact
import TextGrammar.Proofs.Grammar.Frame
import TextGrammar.Proofs.Grammar.Reachable
import TextGrammar.Proofs.Selection

/-!
# Operations on grammars

`Grammar.Operation` lists what a program can do with a grammar once it is built, and
`Grammar.apply` is the grammar after it, also when a document is refused or an expansion halts. The
grammars that come of any number of operations, with fallbacks that came about the same way, are
`Grammar.Operated`.

Their stores are found under their own names and are as they were made, a pushed one empty and a
declared one with a valid definition, and therefore a selection always gives a rule
(`Grammar.Operated.sound_stores`). Of the numbers that are the weights this needs that their sum is
exact: it must not be positive if no weight is.
-/

namespace TextGrammar

variable {α : Type}

/-! ### Tables and their stores -/

namespace Symbols

/-- The rules of a name that a selection takes from. -/
def rules (t : Symbols α) (name : Text) : List Text := (t.store name).active

/-- Every store of the first table is in the second under the same name, and the same but for its
stack. -/
def Keeps (t u : Symbols α) : Prop :=
  ∀ name s, t.find? name = some s → ∃ s', u.find? name = some s' ∧ s'.clear = s.clear

variable {t u v : Symbols α} {name : Text} {s : Store α}

theorem Keeps.refl (t : Symbols α) : t.Keeps t := fun _ s hs => ⟨s, hs, rfl⟩

theorem Keeps.trans (h : t.Keeps u) (h' : u.Keeps v) : t.Keeps v := by
  intro name s hs
  obtain ⟨s', hs', hclear⟩ := h name s hs
  obtain ⟨s'', hs'', hclear'⟩ := h' name s' hs'
  exact ⟨s'', hs'', hclear'.trans hclear⟩

theorem Extends.keeps (h : t.Extends u) : t.Keeps u := by
  intro name s hs
  obtain ⟨added, heq, -⟩ := h
  have hmem : (name, s.clear) ∈ u.clear.entries := by
    rw [heq, entries_clear]
    exact List.mem_append_left _ (List.mem_map_of_mem (Named.find?_eq_some.1 hs))
  obtain ⟨s', hs', hclear⟩ := Named.mem_entries_mapValues.1 hmem
  exact ⟨s', Named.find?_eq_some.2 hs', hclear⟩

theorem Extends.new (h : t.Extends u) (hnew : t.find? name = none) (hs : u.find? name = some s) :
    s.dynamic = true ∧ s.base = [] := by
  obtain ⟨added, heq, hadded⟩ := h
  have hmem : (name, s.clear) ∈ u.clear.entries :=
    Named.mem_entries_mapValues.2 ⟨s, Named.find?_eq_some.1 hs, rfl⟩
  rw [heq, entries_clear] at hmem
  rcases List.mem_append.1 hmem with hold | hmem
  · obtain ⟨e, he, heq⟩ := List.mem_map.1 hold
    have hname : name ∈ t.names := List.mem_map.2 ⟨e, he, (Prod.mk.inj heq).1⟩
    exact absurd hname (Named.find?_eq_none.1 hnew)
  · exact hadded _ hmem

theorem entries_clear_clear (t : Symbols α) : t.clear.clear.entries = t.clear.entries := by
  simp only [entries_clear, List.map_map]
  rfl

theorem keeps_push (t : Symbols α) (name : Text) (rules : List Text) (dynamic : Bool) :
    t.Keeps (t.push name rules dynamic) := by
  intro key s hs
  rw [find?_push]
  by_cases hkey : key = name
  · rw [if_pos hkey, ← hkey, hs]
    exact ⟨s.push rules, rfl, rfl⟩
  · rw [if_neg hkey]
    exact ⟨s, hs, rfl⟩

theorem active?_eq_none (h : t.active? name = none) : t.rules name = [] := by
  rw [active?_eq] at h
  split_ifs at h with hempty
  exact List.isEmpty_iff.1 hempty

theorem active?_eq_some (h : t.active? name = some s) :
    s = t.store name ∧ t.rules name ≠ [] := by
  rw [active?_eq] at h
  split_ifs at h with hempty
  cases h
  exact ⟨rfl, fun hnil => hempty (List.isEmpty_iff.2 hnil)⟩

end Symbols

/-! ### Selections

A store in use has a rule for every draw, if it has active rules at all.
-/

section Picking

variable [Scalar α]

theorem Definition.sum_of_fault? {rules : List Text} {weights : List α}
    (h : (weighted rules weights).fault? = none) (hrules : rules ≠ []) :
    Scalar.le (Scalar.sum weights) Scalar.zero = false := by
  unfold fault? at h
  grind

theorem Symbols.Proper.store {t : Symbols α} (h : t.Proper) (name : Text) :
    (t.store name).Proper name := by
  unfold Symbols.store
  cases hs : t.find? name with
  | none => exact ⟨rfl, fun _ => rfl, fun _ => rfl, nofun⟩
  | some s => exact h name s hs

theorem Store.Proper.fault_of_weights {key : Text} {s : Store α} (h : s.Proper key)
    {weights : List α}
    (hweights : s.weights = some weights) :
    (Definition.weighted s.base weights).fault? = none := by
  have hdeclared : s.dynamic = false := by
    by_contra hdynamic
    rw [h.weights (by simpa using hdynamic)] at hweights
    cases hweights
  have hfault := h.fault hdeclared
  rwa [Symbols.definitionOf, hweights] at hfault

theorem Store.Proper.exists_pick [Scalar.Exact α] {key : Text} {s : Store α} (h : s.Proper key)
    (hactive : s.active ≠ []) (value : α) : ∃ rule ∈ s.active, s.pick value = some rule := by
  obtain ⟨rule, hrule⟩ : ∃ rule, s.pick value = some rule := by
    unfold pick
    split
    · rename_i rules _ hoverrides
      rw [active, hoverrides] at hactive
      exact exists_pickUniform hactive value
    · rename_i weights hoverrides hweights
      rw [active, hoverrides] at hactive
      have hfault := h.fault_of_weights hweights
      exact exists_pickWeighted (Definition.length_eq_of_fault? hfault)
        (Scalar.exists_pos_of_sum (Definition.sum_of_fault? hfault hactive)) value
    · rename_i hoverrides _
      rw [active, hoverrides] at hactive
      exact exists_pickUniform hactive value
  exact ⟨rule, mem_active_of_pick hrule, hrule⟩

end Picking

/-! ### Operations -/

namespace Grammar

/-- What can be done with a grammar. -/
inductive Operation (α : Type) where
  | load (d : Document α)
  | push (name : Text) (rules : List Text) (dynamic : Bool)
  | pop (name : Text)
  | clear
  | addFallback (fallback : Grammar α)
  | register (modifiers : List (Text × Modifier))
  | configure (settings : Settings)
  | reseed (source : Source α)
  | expand (levels : Nat) (rule : Text) (keepEscapes : Bool)
  | expandNode (levels : Nat) (node : Node)
  | expandNodeShallow (node : Node)
  | activate (depth : Nat) (action : Action)
  | select (name : Text)

variable [Scalar α]

/-- The operation replaces the symbols. -/
def Operation.Reloads (op : Operation α) : Prop := ∃ d, op = .load d ∧ d.validate = .ok ()

/-- The grammar after an operation. A document that is not valid is not loaded; an expansion that
halts leaves behind what it has changed so far. -/
def apply (g : Grammar α) : Operation α → Grammar α
  | .load d => ((load d).run g).2
  | .push name rules dynamic => g.push name rules dynamic
  | .pop name => (g.pop name).2
  | .clear => g.clear
  | .addFallback fallback => g.addFallback fallback
  | .register modifiers => g.register modifiers
  | .configure settings => { g with settings }
  | .reseed source => { g with source }
  | .expand levels rule keepEscapes => (g.expandWithin levels rule keepEscapes).grammar
  | .expandNode levels node => (g.expandNodeWithin levels node).grammar
  | .expandNodeShallow node => (g.expandNodeShallow node).grammar
  | .activate depth action => (g.activate depth action).2.2
  | .select name => (g.select name).2.2

/-- The grammar after several operations. -/
def after (g : Grammar α) (ops : List (Operation α)) : Grammar α := ops.foldl apply g

variable {g : Grammar α} {op : Operation α}

theorem apply_load_of_valid (g : Grammar α) {d : Document α} (h : d.validate = .ok ()) :
    g.apply (.load d) = { g with symbols := .ofDocument d, fallbacks := [] } := by
  rw [apply, load_of_valid h]

theorem apply_load_of_invalid (g : Grammar α) {d : Document α} (h : d.validate ≠ .ok ()) :
    g.apply (.load d) = g := by
  cases hd : d.validate with
  | ok => exact absurd hd h
  | error => rw [apply, load_of_refused hd]

/-- Only a load and a push from outside make stores that do not come of an expansion. -/
theorem extends_apply (g : Grammar α) (hload : ¬ op.Reloads)
    (hpush : ∀ name rules, op ≠ .push name rules false) :
    g.symbols.Extends (g.apply op).symbols := by
  cases op with
  | load d =>
    rw [apply_load_of_invalid g fun h => hload ⟨d, rfl, h⟩]
    exact .refl _
  | push name rules dynamic =>
    cases dynamic with
    | true => exact Symbols.extends_push _ _ _
    | false => exact absurd rfl (hpush name rules)
  | pop name => exact Symbols.extends_pop _ _
  | clear => exact .of_clear_eq (by simp only [apply, clear, Symbols.entries_clear_clear])
  | addFallback | register | configure | reseed | select => exact .refl _
  | expand levels rule keepEscapes => exact (Runs.rule levels rule keepEscapes).extends
  | expandNode levels node => exact (Runs.node levels node).extends
  | expandNodeShallow node => exact (Runs.shallow node).extends
  | activate depth action =>
    have haccount := Expansion.extends_account g.context
    obtain ⟨hdone, hhalt⟩ := haccount.activate (haccount.expand g.settings.levels)
      (show Expansion.Scope.bare ≠ .undo by simp) depth action g.state rfl
    cases h : (Expansion.activate g.context (Expansion.expand g.context g.settings.levels) .bare
        depth action g.state).halt with
    | none => exact hdone h
    | some halt => exact hhalt halt h

theorem keeps_apply (g : Grammar α) (hload : ¬ op.Reloads) :
    g.symbols.Keeps (g.apply op).symbols := by
  by_cases hpush : ∃ name rules, op = .push name rules false
  · obtain ⟨name, rules, rfl⟩ := hpush
    exact Symbols.keeps_push g.symbols name rules false
  · push Not at hpush
    exact (g.extends_apply hload hpush).keeps

theorem keeps_after (g : Grammar α) {ops : List (Operation α)}
    (hops : ∀ op ∈ ops, ¬ op.Reloads) : g.symbols.Keeps (g.after ops).symbols := by
  induction ops generalizing g with
  | nil => exact .refl _
  | cons op ops ih =>
    rw [List.forall_mem_cons] at hops
    exact (g.keeps_apply hops.1).trans (ih (g.apply op) hops.2)

/-! ### Grammars that operations lead to -/

/-- The grammars that come of building one and operating on it, with fallbacks that came about the
same way. -/
inductive Operated : Grammar α → Prop
  | build {d modifiers fallbacks source settings g} (hfallbacks : ∀ f ∈ fallbacks, Operated f)
    (h : ofDocument d modifiers fallbacks source settings = .ok g) : Operated g
  | apply {g : Grammar α} (hg : Operated g) (op : Operation α)
    (hop : ∀ f, op = .addFallback f → Operated f) : Operated (g.apply op)

theorem Operated.after (h : g.Operated) {ops : List (Operation α)}
    (hops : ∀ f, .addFallback f ∈ ops → f.Operated) : (g.after ops).Operated := by
  induction ops generalizing g with
  | nil => exact h
  | cons op ops ih =>
    have hop : ∀ f, op = .addFallback f → f.Operated := fun f hf =>
      hops f (hf ▸ List.mem_cons_self)
    exact ih (h.apply op hop) fun f hf => hops f (List.mem_cons_of_mem op hf)

theorem Reachable.apply (h : g.Reachable) (op : Operation α) : (g.apply op).Reachable := by
  cases op with
  | load d =>
    by_cases hd : d.validate = .ok ()
    · have hload : (Grammar.load d).run g = (.ok (), g.apply (.load d)) := by
        rw [load_of_valid hd, apply_load_of_valid g hd]
      exact .load hload
    · rwa [apply_load_of_invalid g hd]
  | push name rules dynamic => exact h.push name rules dynamic
  | pop name => exact h.pop name
  | clear => exact h.clear
  | addFallback fallback => exact h.equip _ _ _ _
  | register modifiers => exact h.equip _ _ _ _
  | configure settings => exact h.equip _ _ _ _
  | reseed source => exact h.equip _ _ _ _
  | expand levels rule keepEscapes => exact h.expand (.rule levels rule keepEscapes)
  | expandNode levels node => exact h.expand (.node levels node)
  | expandNodeShallow node => exact h.expand (.shallow node)
  | activate depth action => exact h.activate depth action
  | select name => exact h.equip _ _ _ _

theorem Operated.reachable (h : g.Operated) : g.Reachable := by
  induction h with
  | build _ h => exact .build h
  | apply _ op _ ih => exact ih.apply op

/-- An operation adds a fallback, drops them all, or leaves them as they are. -/
theorem fallbacks_apply (g : Grammar α) (op : Operation α) :
    (∃ f, op = .addFallback f ∧ (g.apply op).fallbacks = g.fallbacks ++ [f]) ∨
      (g.apply op).fallbacks = [] ∨ (g.apply op).fallbacks = g.fallbacks := by
  cases op with
  | load d =>
    by_cases hd : d.validate = .ok ()
    · rw [apply_load_of_valid g hd]
      exact .inr (.inl rfl)
    · rw [apply_load_of_invalid g hd]
      exact .inr (.inr rfl)
  | addFallback f => exact .inl ⟨f, rfl, rfl⟩
  | expand levels rule keepEscapes =>
    cases keepEscapes <;> exact .inr (.inr rfl)
  | push | pop | clear | register | configure | reseed | expandNode | expandNodeShallow | activate
    | select => exact .inr (.inr rfl)

theorem Operated.fallbacks (h : g.Operated) : ∀ f ∈ g.fallbacks, f.Operated := by
  induction h with
  | build hfallbacks h =>
    obtain ⟨-, rfl⟩ := eq_of_ofDocument h
    exact hfallbacks
  | @apply g _ op hop ih =>
    intro f hf
    rcases g.fallbacks_apply op with ⟨f', rfl, heq⟩ | heq | heq <;> rw [heq] at hf
    · rcases List.mem_append.1 hf with hf | hf
      · exact ih f hf
      · exact hop f (by rw [List.mem_singleton.1 hf])
    · cases hf
    · exact ih f hf

theorem Operated.of_plan {p : Plan} {g : Grammar Float} (hfallbacks : ∀ f ∈ p.fallbacks, f.Operated)
    (h : p.build = .ok g) : g.Operated := by
  unfold Plan.build at h
  cases hd : p.document with
  | error => simp [hd, bind, Except.bind] at h
  | ok d =>
    cases hs : p.baseSettings with
    | error => simp [hd, hs, bind, Except.bind] at h
    | ok settings =>
      simp only [hd, hs, bind, Except.bind] at h
      exact .build hfallbacks h

/-! ### Sound grammars -/

/-- What is selected for a name: a rule of the first table that has any, the grammar's own before
those of its fallbacks. Where none has, it is the placeholder, and the name is reported. -/
inductive Selected (g : Grammar α) (name : Text) : Option Text → List Diagnostic → Prop
  | own {rule : Text} (hrule : rule ∈ g.symbols.rules name) : Selected g name (some rule) []
  | fallback {before after : List (Grammar α)} {f : Grammar α} {rule : Text}
    (hown : g.symbols.rules name = []) (hfallbacks : g.fallbacks = before ++ f :: after)
    (hbefore : ∀ b ∈ before, b.symbols.rules name = []) (hrule : rule ∈ f.symbols.rules name) :
    Selected g name (some rule) []
  | placeholder (hown : g.symbols.rules name = [])
    (hfallbacks : ∀ f ∈ g.fallbacks, f.symbols.rules name = []) :
    Selected g name (some (Text.placeholder name)) [g.symbols.unresolved name]

theorem selected_select [Scalar.Exact α] (hg : g.symbols.Proper)
    (hfallbacks : ∀ f ∈ g.fallbacks, f.symbols.Proper) (name : Text) :
    Selected g name (g.select name).1 (g.select name).2.1 := by
  have hrule : (g.select name).1 =
      (g.symbols.select (g.fallbacks.map (·.symbols)) name g.source).rule := rfl
  have hproblems : (g.select name).2.1 =
      (g.symbols.select (g.fallbacks.map (·.symbols)) name g.source).problems := rfl
  rw [hrule, hproblems]
  cases h : g.symbols.resolve? (g.fallbacks.map (·.symbols)) name with
  | none =>
    rw [Symbols.select_of_unresolved h]
    obtain ⟨hown, hnone⟩ := Option.or_eq_none_iff.1 h
    rw [List.findSome?_map, List.findSome?_eq_none_iff] at hnone
    exact .placeholder (Symbols.active?_eq_none hown) fun f hf =>
      Symbols.active?_eq_none (hnone f hf)
  | some s =>
    -- whichever table the store is of, one of its rules is picked
    have hpicked : ∀ t : Symbols α, t.Proper → t.active? name = some s →
        ∃ rule ∈ t.rules name, s.pick g.source.next.1 = some rule := by
      intro t ht hs
      obtain ⟨rfl, hrules⟩ := Symbols.active?_eq_some hs
      exact (ht.store name).exists_pick hrules _
    rw [Symbols.select_of_resolved h]
    rcases Option.or_eq_some_iff.1 h with hown | ⟨hown, hfound⟩
    · obtain ⟨rule, hmem, hpick⟩ := hpicked _ hg hown
      rw [hpick]
      exact .own hmem
    · rw [List.findSome?_map] at hfound
      obtain ⟨before, f, after, hsplit, hf, hbefore⟩ := List.findSome?_eq_some_iff.1 hfound
      have hmem : f ∈ g.fallbacks := hsplit ▸ List.mem_append_right _ List.mem_cons_self
      obtain ⟨rule, hrule, hpick⟩ := hpicked _ (hfallbacks f hmem) hf
      rw [hpick]
      exact .fallback (Symbols.active?_eq_none hown) hsplit
        (fun b hb => Symbols.active?_eq_none (hbefore b hb)) hrule

/-- The stores of a grammar are sound. -/
structure Sound (g : Grammar α) : Prop where
  /-- A store is kept under its own name. -/
  named : ∀ key s, (key, s) ∈ g.symbols.entries → s.name = key
  /-- No two stores have the same name, and each is found under it. -/
  once : (g.symbols.entries.map fun e => e.2.name).Nodup ∧
    ∀ e ∈ g.symbols.entries, g.symbols.find? e.2.name = some e.2
  /-- A store that a push made has nothing declared. -/
  dynamic : ∀ name s, g.symbols.find? name = some s → s.dynamic = true →
    s.base = [] ∧ s.weights = none
  /-- Weights are as many as there are rules, and the declaration has no fault. -/
  weighted : ∀ name s weights, g.symbols.find? name = some s → s.weights = some weights →
    s.base.length = weights.length ∧ (Definition.weighted s.base weights).fault? = none
  /-- A load succeeds or fails as the document is valid or not. -/
  verdict : ∀ d : Document α, ((load d).run g).1 = d.validate
  /-- The symbols of a document that is loaded are made as it declares them. -/
  loaded : ∀ d : Document α, d.validate = .ok () →
    (g.apply (.load d)).symbols = .ofDocument d
  /-- A document that is refused changes nothing. -/
  refused : ∀ d : Document α, d.validate ≠ .ok () → g.apply (.load d) = g
  /-- Other symbols are made by a push, from outside with the rules as the base. -/
  made : ∀ op : Operation α, ¬ op.Reloads → ∀ name s, g.symbols.find? name = none →
    (g.apply op).symbols.find? name = some s →
      (s.dynamic = true ∧ s.base = [] ∧ s.weights = none) ∨
        ∃ rules, op = .push name rules false ∧ s = { name, base := rules }
  /-- Until the next document is loaded, a symbol keeps its name, its base, its weights and its
  mark. -/
  kept : ∀ ops : List (Operation α), (∀ op ∈ ops, ¬ op.Reloads) →
    g.symbols.Keeps (g.after ops).symbols
  /-- If sums are exact, a rule is selected for every name. -/
  selected : Scalar.Exact α → ∀ name, Selected g name (g.select name).1 (g.select name).2.1

theorem Operated.named (h : g.Operated) {key : Text} {s : Store α}
    (hs : (key, s) ∈ g.symbols.entries) : s.name = key :=
  (h.reachable.proper key s (Named.find?_eq_some.2 hs)).name

theorem Operated.once (h : g.Operated) :
    (g.symbols.entries.map fun e => e.2.name).Nodup ∧
      ∀ e ∈ g.symbols.entries, g.symbols.find? e.2.name = some e.2 := by
  have hnames : g.symbols.entries.map (fun e => e.2.name) = g.symbols.names :=
    List.map_congr_left fun e he => h.named he
  refine ⟨hnames ▸ g.symbols.nodup, fun e he => ?_⟩
  rw [h.named he]
  exact Named.find?_eq_some.2 he

theorem Operated.made (h : g.Operated) (hload : ¬ op.Reloads) {name : Text} {s : Store α}
    (hnew : g.symbols.find? name = none) (hs : (g.apply op).symbols.find? name = some s) :
    (s.dynamic = true ∧ s.base = [] ∧ s.weights = none) ∨
      ∃ rules, op = .push name rules false ∧ s = { name, base := rules } := by
  by_cases hpush : ∃ name rules, op = .push name rules false
  · obtain ⟨name', rules, rfl⟩ := hpush
    have hs' : (g.symbols.push name' rules false).find? name = some s := hs
    rw [Symbols.find?_push] at hs'
    by_cases hname : name = name'
    · subst hname
      rw [if_pos rfl, hnew] at hs'
      cases hs'
      exact .inr ⟨rules, rfl, rfl⟩
    · rw [if_neg hname, hnew] at hs'
      cases hs'
  · push Not at hpush
    obtain ⟨hdynamic, hbase⟩ := (g.extends_apply hload hpush).new hnew hs
    have hproper := (h.reachable.apply op).proper name s hs
    exact .inl ⟨hdynamic, hbase, hproper.weights hdynamic⟩

/-- **However a grammar is built and operated on, its stores are sound.** -/
theorem Operated.sound_stores :
    (∀ g : Grammar α, g.Operated → g.Sound) ∧
      ∀ (p : Plan) (g : Grammar Float), (∀ f ∈ p.fallbacks, f.Operated) → p.build = .ok g →
        g.Operated := by
  refine ⟨fun g h => ?_, fun p g hfallbacks hbuild => .of_plan hfallbacks hbuild⟩
  have hproper : g.symbols.Proper := h.reachable.proper
  have hfallbacks : ∀ f ∈ g.fallbacks, f.symbols.Proper := fun f hf =>
    (h.fallbacks f hf).reachable.proper
  exact {
    named := fun _ _ hs => h.named hs
    once := h.once
    dynamic := fun name s hs hdynamic =>
      ⟨(hproper name s hs).base hdynamic, (hproper name s hs).weights hdynamic⟩
    weighted := by
      intro name s weights hs hweights
      have hfault := (hproper name s hs).fault_of_weights hweights
      exact ⟨Definition.length_eq_of_fault? hfault, hfault⟩
    verdict := by
      intro d
      cases hd : d.validate with
      | ok => rw [load_of_valid hd]
      | error => rw [load_of_refused hd]
    loaded := by
      intro d hd
      rw [apply_load_of_valid g hd]
    refused := fun _ hd => apply_load_of_invalid g hd
    made := fun _ hload _ _ hnew hs => h.made hload hnew hs
    kept := fun _ hops => g.keeps_after hops
    selected := fun _ name => selected_select hproper hfallbacks name }

/-- The rules of the symbol of which the third one has no weight. -/
def moods : Document ℚ :=
  .ofList
    [("mood".toList, .weighted ["calm".toList, "wild".toList, "none".toList] [1 / 2, 3, 0]),
      ("void".toList, .many [])]

/-- A push for good and one that an expansion leaves behind when it halts, a document that is
refused, a pop, and a fallback. -/
def useOfMoods (fallback : Grammar ℚ) : List (Operation ℚ) :=
  [.push "hero".toList ["Mia".toList] false,
    .expand 9 "[prop:rope]#[mood:grim]a[x:1]b#".toList false,
    .load (.ofList [("mood".toList, .weighted ["calm".toList] [0])]),
    .pop "prop".toList, .addFallback fallback]

theorem Operated.sound_stores_moods :
    let g : Grammar ℚ := ⟨.ofDocument moods, .empty, [], .fixed (9 / 10), {}⟩
    let fallback : Grammar ℚ := ⟨.ofDocument moods, .empty, [], .fixed 0, {}⟩
    let used := g.after (useOfMoods fallback)
    used.Operated ∧ used.Sound ∧
      (ofRules [("a", ["x"])]).Operated ∧
      used.symbols.names = ["mood".toList, "void".toList, "hero".toList, "prop".toList] ∧
      (used.select "mood".toList).1 = some "wild".toList ∧
      (used.select "prop".toList).2.1 = [.missingSymbol "prop".toList] ∧
      (used.select "void".toList).2.1 = [.emptySymbol "void".toList] := by
  intro g fallback used
  have hvalid : moods.validate = .ok () := by
    have hfaultless : ∀ e ∈ moods.entries, e.2.fault?.isNone = true := by decide +kernel
    exact Document.validate_eq_ok.2 fun e he => Option.isNone_iff_eq_none.1 (hfaultless e he)
  have hnone : ∀ f ∈ ([] : List (Grammar ℚ)), f.Operated := fun _ hf => by cases hf
  have hg : g.Operated := .build hnone (ofDocument_of_valid hvalid _ _ _ _)
  have hfallback : fallback.Operated := .build hnone (ofDocument_of_valid hvalid _ _ _ _)
  have hused : used.Operated := hg.after fun f hf => by
    simp only [useOfMoods, List.mem_cons, reduceCtorEq, Operation.addFallback.injEq, false_or,
      List.not_mem_nil, or_false] at hf
    rwa [hf]
  let plan : Plan := { definition := some (documentOf [("a", ["x"])]), source := .fixed 0 }
  have hbuilt : (ofRules [("a", ["x"])]).Operated :=
    (Operated.sound_stores (α := ℚ)).2 plan _ (fun _ hf => by cases hf) rfl
  exact ⟨hused, Operated.sound_stores.1 used hused, hbuilt, by decide +kernel, by decide +kernel,
    by decide +kernel, by decide +kernel⟩

end Grammar

end TextGrammar
