import Mathlib.Data.List.Induction
import TextGrammar.Proofs.Expansion.Scoping

/-!
# Whose pushes are left

Every list of rules on a stack was put there by an action that stands by itself or by one in a tag.
The trace of a run tells which: replayed, it gives the lists over a symbol with the scopes that they
were pushed in (`Expansion.layers`).

A tag owes a pop for each push of its actions, and takes what lies on top when it pays. That is a
list of its own as long as nothing that is to stay was pushed over it. So a bare push changes places
with one of a tag if it happens while that lies on the stack, and then the wrong one is taken away.
Otherwise the bare pushes are what is left, and nothing else is (`Grammar.Runs.layers_eq_iff`).

The proof follows the trace with the number of pops that are owed (`Owed`). Lists of open tags lie
above those that stay, all of these being there, exactly if no bare push came in between
(`Owed.undisturbed_iff`).
-/

namespace TextGrammar.Expansion

/-- A list of rules on a stack, with the scope it was pushed in. -/
structure Layer where
  scope : Scope
  rules : List Text
  deriving DecidableEq, Repr

/-- What an event makes of the layers over a symbol, the last first. -/
def Event.onto (symbol : Text) (layers : List Layer) : Event → List Layer
  | push scope name rules => if name = symbol then ⟨scope, rules⟩ :: layers else layers
  | pop _ name => if name = symbol then layers.tail else layers
  | tag _ => layers

/-- The layers over a symbol that a trace leaves behind. -/
def layers (symbol : Text) (trace : List Event) : List Layer :=
  trace.foldl (Event.onto symbol) []

/-- What it would leave behind if all pushes in tags, and all pops, were left out. -/
def bareLayers (symbol : Text) (trace : List Event) : List Layer :=
  layers symbol (trace.filter (·.isBarePush symbol))

/-- In these events no action pops, and for `n` pushes of actions in tags over the symbol the pops
are still to come. -/
inductive Owed (symbol : Text) : List Event → Nat → Prop
  | nil : Owed symbol [] 0
  | bare {events n} (rules : List Text) (h : Owed symbol events n) :
    Owed symbol (events ++ [.push .bare symbol rules]) n
  | before {events n} (rules : List Text) (h : Owed symbol events n) :
    Owed symbol (events ++ [.push .before symbol rules]) (n + 1)
  | undo {events n} (h : Owed symbol events (n + 1)) :
    Owed symbol (events ++ [.pop .undo symbol]) n
  | other {events n} (e : Event) (he : ∀ layers, e.onto symbol layers = layers)
    (h : Owed symbol events n) : Owed symbol (events ++ [e]) n

variable {symbol name : Text} {scope : Scope} {events later : List Event} {e : Event}
  {layer : Layer} {n m : Nat}

/-! ### Replaying a trace -/

namespace Event

theorem onto_push (symbol : Text) (layers : List Layer) (scope : Scope) (rules : List Text) :
    (push scope symbol rules).onto symbol layers = ⟨scope, rules⟩ :: layers :=
  if_pos rfl

theorem onto_pop (symbol : Text) (layers : List Layer) (scope : Scope) :
    (pop scope symbol).onto symbol layers = layers.tail :=
  if_pos rfl

theorem onto_push_of_ne (h : name ≠ symbol) (layers : List Layer) (scope : Scope)
    (rules : List Text) : (push scope name rules).onto symbol layers = layers :=
  if_neg h

theorem onto_pop_of_ne (h : name ≠ symbol) (layers : List Layer) (scope : Scope) :
    (pop scope name).onto symbol layers = layers :=
  if_neg h

theorem exists_of_isBarePush (h : e.isBarePush symbol = true) :
    ∃ rules, e = push .bare symbol rules := by
  match e, h with
  | push .bare name rules, h => exact ⟨rules, by rw [eq_of_beq h]⟩

end Event

theorem layers_concat (symbol : Text) (events : List Event) (e : Event) :
    layers symbol (events ++ [e]) = e.onto symbol (layers symbol events) := by
  rw [layers, List.foldl_append]
  rfl

theorem bareLayers_concat_bare (symbol : Text) (events : List Event) (rules : List Text) :
    bareLayers symbol (events ++ [.push .bare symbol rules]) =
      ⟨.bare, rules⟩ :: bareLayers symbol events := by
  have hbare : (Event.push .bare symbol rules).isBarePush symbol = true := beq_self_eq_true symbol
  rw [bareLayers, List.filter_append, List.filter_cons_of_pos hbare, List.filter_nil,
    layers_concat, Event.onto_push]
  rfl

theorem bareLayers_concat (h : e.isBarePush symbol = false) (events : List Event) :
    bareLayers symbol (events ++ [e]) = bareLayers symbol events := by
  rw [bareLayers, List.filter_append, List.filter_cons_of_neg (by simp [h]), List.filter_nil,
    List.append_nil]
  rfl

theorem scope_of_mem_bareLayers (h : layer ∈ bareLayers symbol events) : layer.scope = .bare := by
  induction events using List.reverseRecOn with
  | nil => cases h
  | append_singleton events e ih =>
    by_cases he : e.isBarePush symbol = true
    · obtain ⟨rules, rfl⟩ := Event.exists_of_isBarePush he
      rw [bareLayers_concat_bare] at h
      rcases List.mem_cons.1 h with rfl | h
      · rfl
      · exact ih h
    · rw [bareLayers_concat (Bool.eq_false_iff.2 he)] at h
      exact ih h

theorem filter_onto_sublist (he : e.isBarePush symbol = false) (layers : List Layer) :
    ((e.onto symbol layers).filter (·.scope = .bare)).Sublist
      (layers.filter (·.scope = .bare)) := by
  cases e with
  | tag name => exact List.Sublist.refl _
  | pop scope name =>
    by_cases hname : name = symbol
    · rw [hname, Event.onto_pop]
      exact (List.tail_sublist layers).filter _
    · simp only [Event.onto_pop_of_ne hname, List.Sublist.refl]
  | push scope name rules =>
    by_cases hname : name = symbol
    · have hscope : scope ≠ .bare := by
        rintro rfl
        simp [Event.isBarePush, hname] at he
      have hkept : (⟨scope, rules⟩ :: layers : List Layer).filter (·.scope = .bare) =
          layers.filter (·.scope = .bare) :=
        List.filter_cons_of_neg (by simpa using hscope)
      simp only [hname, Event.onto_push, hkept, List.Sublist.refl]
    · simp only [Event.onto_push_of_ne hname, List.Sublist.refl]

theorem filter_layers_sublist (symbol : Text) (events : List Event) :
    ((layers symbol events).filter (·.scope = .bare)).Sublist (bareLayers symbol events) := by
  induction events using List.reverseRecOn with
  | nil => exact List.nil_sublist _
  | append_singleton events e ih =>
    by_cases he : e.isBarePush symbol = true
    · obtain ⟨rules, rfl⟩ := Event.exists_of_isBarePush he
      rw [layers_concat, Event.onto_push, bareLayers_concat_bare,
        List.filter_cons_of_pos (by simp)]
      exact ih.cons_cons _
    · have he := Bool.eq_false_iff.2 he
      rw [layers_concat, bareLayers_concat he]
      exact (filter_onto_sublist he _).trans ih

/-! ### What is owed -/

namespace Owed

theorem isBarePush_of_other (he : ∀ layers, e.onto symbol layers = layers) :
    e.isBarePush symbol = false := by
  refine Bool.eq_false_iff.2 fun h => ?_
  obtain ⟨rules, rfl⟩ := Event.exists_of_isBarePush h
  simpa [Event.onto_push] using he []

theorem append (h : Owed symbol events n) (h' : Owed symbol later m) :
    Owed symbol (events ++ later) (n + m) := by
  induction h' with
  | nil => rwa [List.append_nil]
  | bare rules _ ih => rw [← List.append_assoc]; exact ih.bare rules
  | before rules _ ih => rw [← List.append_assoc]; exact ih.before rules
  | undo _ ih => rw [← List.append_assoc]; exact ih.undo
  | other e he _ ih => rw [← List.append_assoc]; exact ih.other e he

theorem length_layers (h : Owed symbol events n) :
    (layers symbol events).length = (bareLayers symbol events).length + n := by
  induction h with
  | nil => rfl
  | bare rules _ ih =>
    rw [layers_concat, Event.onto_push, bareLayers_concat_bare, List.length_cons, List.length_cons,
      ih]
    omega
  | before rules _ ih =>
    rw [layers_concat, Event.onto_push, bareLayers_concat rfl, List.length_cons, ih]
    omega
  | undo _ ih =>
    rw [layers_concat, Event.onto_pop, bareLayers_concat rfl, List.length_tail, ih]
    omega
  | other e he _ ih =>
    rw [layers_concat, he, bareLayers_concat (isBarePush_of_other he), ih]

/-- A pop that is owed finds a layer. -/
theorem exists_layers_eq_cons (h : Owed symbol events (n + 1)) :
    ∃ layer rest, layers symbol events = layer :: rest := by
  refine List.exists_cons_of_length_pos ?_
  rw [h.length_layers]
  omega

/-- So no pop reaches the layers that were there before. -/
theorem foldl_onto (h : Owed symbol events n) (below : List Layer) :
    events.foldl (Event.onto symbol) below = layers symbol events ++ below := by
  induction h with
  | nil => rfl
  | bare rules _ ih | before rules _ ih =>
    rw [layers_concat, List.foldl_append, ih, Event.onto_push]
    exact Event.onto_push ..
  | undo h ih =>
    obtain ⟨layer, rest, hcons⟩ := h.exists_layers_eq_cons
    rw [layers_concat, List.foldl_append, ih, hcons, Event.onto_pop]
    exact Event.onto_pop symbol _ .undo
  | other e he _ ih =>
    rw [layers_concat, List.foldl_append, ih, he]
    exact he _

theorem layers_append (h' : Owed symbol later m) :
    layers symbol (events ++ later) = layers symbol later ++ layers symbol events := by
  rw [layers, List.foldl_append]
  exact h'.foldl_onto _

end Owed

/-! ### What is left -/

/-- The layers of open tags lie on top, and of the bare pushes all are there. -/
def Undisturbed (symbol : Text) (events : List Event) : Prop :=
  ∃ tops : List Layer, (∀ layer ∈ tops, layer.scope ≠ .bare) ∧
    layers symbol events = tops ++ bareLayers symbol events

/-- No bare push came in between: whenever there was one over the symbol, no layer of a tag was
there. -/
def Apart (symbol : Text) (events : List Event) : Prop :=
  ∀ before rules after, events = before ++ .push .bare symbol rules :: after →
    ∀ layer ∈ layers symbol before, layer.scope = .bare

theorem apart_concat :
    Apart symbol (events ++ [e]) ↔ Apart symbol events ∧
      ∀ rules, e = .push .bare symbol rules →
        ∀ layer ∈ layers symbol events, layer.scope = .bare := by
  constructor
  · intro h
    refine ⟨fun before rules after hevents => ?_, fun rules he => ?_⟩
    · refine h before rules (after ++ [e]) ?_
      rw [hevents, List.append_assoc, List.cons_append]
    · exact h events rules [] (by rw [he])
  · rintro ⟨hevents, hlast⟩ before rules after heq
    rcases List.eq_nil_or_concat after with rfl | ⟨after, last, rfl⟩
    · obtain ⟨rfl, he⟩ := List.append_inj' heq rfl
      exact hlast rules (List.cons.inj he).1
    · rw [List.concat_eq_append, ← List.cons_append, ← List.append_assoc] at heq
      obtain ⟨rfl, -⟩ := List.append_inj' heq rfl
      exact hevents before rules after rfl

theorem apart_concat_of_not (h : e.isBarePush symbol = false) :
    Apart symbol (events ++ [e]) ↔ Apart symbol events := by
  rw [apart_concat, and_iff_left]
  rintro rules rfl
  simp [Event.isBarePush] at h

theorem scope_ne_of_cons {rest tops : List Layer}
    (hcons : layers symbol events = layer :: rest)
    (hrest : rest = tops ++ bareLayers symbol events) : layer.scope ≠ .bare := by
  intro hbare
  have hall : (bareLayers symbol events).filter (·.scope = .bare) = bareLayers symbol events :=
    List.filter_eq_self.2 fun l hl => by simpa using scope_of_mem_bareLayers hl
  have hlength := (filter_layers_sublist symbol events).length_le
  rw [hcons, hrest, List.filter_cons_of_pos (by simpa using hbare), List.filter_append, hall,
    List.length_cons, List.length_append] at hlength
  omega

/-- A layer that is to stay lies above those of open tags as soon as there are any. -/
theorem undisturbed_concat_bare (symbol : Text) (events : List Event) (rules : List Text) :
    Undisturbed symbol (events ++ [.push .bare symbol rules]) ↔
      Undisturbed symbol events ∧ ∀ layer ∈ layers symbol events, layer.scope = .bare := by
  unfold Undisturbed
  rw [layers_concat, Event.onto_push, bareLayers_concat_bare]
  constructor
  · rintro ⟨tops, htops, heq⟩
    cases tops with
    | nil =>
      have hlayers : layers symbol events = bareLayers symbol events := (List.cons.inj heq).2
      refine ⟨⟨[], by simp, hlayers⟩, fun layer hlayer => ?_⟩
      rw [hlayers] at hlayer
      exact scope_of_mem_bareLayers hlayer
    | cons top tops =>
      obtain ⟨rfl, -⟩ := List.cons.inj heq
      exact absurd rfl (htops _ List.mem_cons_self)
  · rintro ⟨⟨tops, htops, heq⟩, hbare⟩
    obtain rfl : tops = [] := by
      refine List.eq_nil_iff_forall_not_mem.2 fun layer hlayer => htops layer hlayer ?_
      refine hbare layer ?_
      rw [heq]
      exact List.mem_append_left _ hlayer
    exact ⟨[], by simp, by rw [heq]; rfl⟩

theorem undisturbed_concat_before (symbol : Text) (events : List Event) (rules : List Text) :
    Undisturbed symbol (events ++ [.push .before symbol rules]) ↔ Undisturbed symbol events := by
  unfold Undisturbed
  rw [layers_concat, Event.onto_push, bareLayers_concat rfl]
  constructor
  · rintro ⟨tops, htops, heq⟩
    cases tops with
    | nil =>
      have hmem : ⟨.before, rules⟩ ∈ bareLayers symbol events := by
        rw [← List.nil_append (bareLayers symbol events), ← heq]
        exact List.mem_cons_self
      exact absurd (scope_of_mem_bareLayers hmem) (by simp)
    | cons top tops =>
      exact ⟨tops, fun layer hlayer => htops layer (List.mem_cons_of_mem _ hlayer),
        (List.cons.inj heq).2⟩
  · rintro ⟨tops, htops, heq⟩
    refine ⟨⟨.before, rules⟩ :: tops, List.forall_mem_cons.2 ⟨by simp, htops⟩, ?_⟩
    rw [heq, List.cons_append]

/-- A pop that is owed takes a layer of a tag away, if those of tags lie on top. -/
theorem undisturbed_concat_undo (h : Owed symbol events (n + 1)) :
    Undisturbed symbol (events ++ [.pop .undo symbol]) ↔ Undisturbed symbol events := by
  unfold Undisturbed
  rw [layers_concat, Event.onto_pop, bareLayers_concat rfl]
  constructor
  · rintro ⟨tops, htops, heq⟩
    obtain ⟨layer, rest, hcons⟩ := h.exists_layers_eq_cons
    rw [hcons, List.tail_cons] at heq
    have hlayer : layer.scope ≠ .bare := scope_ne_of_cons hcons heq
    exact ⟨layer :: tops, List.forall_mem_cons.2 ⟨hlayer, htops⟩, by rw [hcons, heq]; rfl⟩
  · rintro ⟨tops, htops, heq⟩
    cases tops with
    | nil =>
      -- then there would be no layer for the pop that is owed
      have hlength := h.length_layers
      rw [heq, List.nil_append] at hlength
      omega
    | cons top tops =>
      exact ⟨tops, fun layer hlayer => htops layer (List.mem_cons_of_mem _ hlayer),
        by rw [heq]; rfl⟩

namespace Owed

/-- **Whose layers are left** depends on what the bare pushes fell upon. -/
theorem undisturbed_iff (h : Owed symbol events n) :
    Undisturbed symbol events ↔ Apart symbol events := by
  induction h with
  | nil => exact iff_of_true ⟨[], by simp, rfl⟩ fun before rules after h => by simp at h
  | bare rules _ ih =>
    rw [undisturbed_concat_bare, apart_concat, ih]
    refine and_congr_right fun _ => ⟨fun h _ _ => h, fun h => h rules rfl⟩
  | before rules _ ih => rw [undisturbed_concat_before, apart_concat_of_not rfl, ih]
  | undo h ih => rw [undisturbed_concat_undo h, apart_concat_of_not rfl, ih]
  | other e he _ ih =>
    have hbare := isBarePush_of_other he
    rw [apart_concat_of_not hbare, ← ih]
    unfold Undisturbed
    rw [layers_concat, he, bareLayers_concat hbare]

theorem forall_bare_iff (h : Owed symbol events 0) :
    (∀ layer ∈ layers symbol events, layer.scope = .bare) ↔
      layers symbol events = bareLayers symbol events := by
  constructor
  · intro hbare
    have hsublist := filter_layers_sublist symbol events
    rw [List.filter_eq_self.2 fun layer hlayer => by simpa using hbare layer hlayer] at hsublist
    exact hsublist.eq_of_length h.length_layers
  · intro heq layer hlayer
    rw [heq] at hlayer
    exact scope_of_mem_bareLayers hlayer

theorem eq_bareLayers_iff (h : Owed symbol events 0) :
    layers symbol events = bareLayers symbol events ↔ Apart symbol events := by
  rw [← h.undisturbed_iff]
  constructor
  · exact fun heq => ⟨[], by simp, heq⟩
  · rintro ⟨tops, -, heq⟩
    have hlength := h.length_layers
    rw [heq, List.length_append] at hlength
    have htops : tops = [] := List.eq_nil_of_length_eq_zero (by omega)
    rw [heq, htops, List.nil_append]

end Owed

/-! ### Expansions -/

variable {α : Type} {s t u : State α} {undos undos' : List Text} {ds ds' : List Diagnostic}

/-- Unless an action popped something, the layers lie above what was on the stacks before, and the
pops that are still to come are owed. -/
def Layered (undos : List Text) (_problems : List Diagnostic) (s t : State α) : Prop :=
  ∃ events, t.trace = events.reverse ++ s.trace ∧
    ((∀ e ∈ events, e.isPopOfAction = false) → ∀ symbol,
      Owed symbol events (undos.count symbol) ∧
        t.symbols.stack symbol =
          (layers symbol events).map (·.rules) ++ s.symbols.stack symbol)

namespace Layered

theorem of_symbols_eq (htrace : t.trace = s.trace) (hsymbols : t.symbols = s.symbols) :
    Layered [] ds s t :=
  ⟨[], htrace, fun _ _ => ⟨.nil, by rw [hsymbols]; rfl⟩⟩

theorem enter (name : Text) (s : State α) : Layered [] ds s (s.enter name) :=
  ⟨[.tag name], rfl, fun _ _ => ⟨.other _ (fun _ => rfl) .nil, rfl⟩⟩

theorem trans (h : Layered undos ds s t) (h' : Layered undos' ds' t u) :
    Layered (undos ++ undos') (ds ++ ds') s u := by
  obtain ⟨events, htrace, hs⟩ := h
  obtain ⟨later, htrace', hs'⟩ := h'
  refine ⟨events ++ later, by rw [htrace', htrace, List.reverse_append, List.append_assoc],
    fun hfree symbol => ?_⟩
  obtain ⟨howed, hstack⟩ := hs (fun e he => hfree e (List.mem_append_left _ he)) symbol
  obtain ⟨howed', hstack'⟩ := hs' (fun e he => hfree e (List.mem_append_right _ he)) symbol
  refine ⟨by rw [List.count_append]; exact howed.append howed', ?_⟩
  rw [howed'.layers_append, List.map_append, List.append_assoc, hstack', hstack]

theorem of_push {rules : List Text}
    (howed : ∀ symbol, Owed symbol [.push scope name rules] (undos.count symbol)) (s : State α) :
    Layered undos [] s (s.push scope name rules) := by
  refine ⟨[.push scope name rules], rfl, fun _ symbol => ⟨howed symbol, ?_⟩⟩
  have hstack : (s.push scope name rules).symbols.stack symbol =
      if symbol = name then rules :: s.symbols.stack symbol else s.symbols.stack symbol :=
    Symbols.stack_push s.symbols name rules symbol
  have hlayers : layers symbol [.push scope name rules] =
      (Event.push scope name rules).onto symbol [] := rfl
  rw [hstack, hlayers]
  by_cases hname : symbol = name
  · subst hname
    rw [if_pos rfl, Event.onto_push]
    rfl
  · rw [if_neg hname, Event.onto_push_of_ne (Ne.symm hname)]
    rfl

theorem bare_push (name : Text) (rules : List Text) (s : State α) :
    Layered [] [] s (s.push .bare name rules) := by
  refine of_push (fun symbol => ?_) s
  by_cases hname : name = symbol
  · subst hname
    exact .bare rules .nil
  · exact .other _ (fun layers => Event.onto_push_of_ne hname layers _ _) .nil

theorem before_push (name : Text) (rules : List Text) (s : State α) :
    Layered [name] [] s (s.push .before name rules) := by
  refine of_push (fun symbol => ?_) s
  by_cases hname : name = symbol
  · subst hname
    rw [List.count_singleton_self]
    exact .before rules .nil
  · rw [List.count_singleton, beq_false_of_ne hname]
    exact .other _ (fun layers => Event.onto_push_of_ne hname layers _ _) .nil

theorem undo (h : Layered (name :: undos) ds s t) :
    Layered undos ds' s (t.pop .undo name).2 := by
  obtain ⟨events, htrace, hs⟩ := h
  refine ⟨events ++ [.pop .undo name], ?_, fun hfree symbol => ?_⟩
  · rw [List.reverse_append, List.append_assoc, ← htrace]
    rfl
  obtain ⟨howed, hstack⟩ := hs (fun e he => hfree e (List.mem_append_left _ he)) symbol
  have hafter : (t.pop .undo name).2.symbols.stack symbol =
      if symbol = name then (t.symbols.stack symbol).tail else t.symbols.stack symbol :=
    Symbols.stack_pop t.symbols name symbol
  rw [hafter, layers_concat]
  by_cases hname : symbol = name
  · subst hname
    rw [List.count_cons_self] at howed
    obtain ⟨layer, rest, hcons⟩ := howed.exists_layers_eq_cons
    refine ⟨howed.undo, ?_⟩
    rw [if_pos rfl, hstack, Event.onto_pop, hcons]
    rfl
  · rw [List.count_cons_of_ne (Ne.symm hname)] at howed
    refine ⟨.other _ (fun layers => Event.onto_pop_of_ne (Ne.symm hname) layers _) howed, ?_⟩
    rw [if_neg hname, hstack, Event.onto_pop_of_ne (Ne.symm hname)]

theorem settle (h : Layered undos ds s t) :
    Layered [] ds' s (t.popAll .undo undos).2 := by
  induction undos generalizing ds t with
  | nil => exact h
  | cons name undos ih =>
    have hrest : Layered undos ds s (t.pop .undo name).2 := h.undo
    exact ih hrest

/-- A pop by an action voids what is said of the stacks. -/
theorem of_pop (hscope : scope ≠ .undo) (name : Text) (s : State α) :
    Layered [] ds s (s.pop scope name).2 := by
  refine ⟨[.pop scope name], rfl, fun hfree => ?_⟩
  have hpop := hfree _ List.mem_cons_self
  cases scope <;> simp_all [Event.isPopOfAction]

end Layered

theorem layered_account [Scalar α] (c : Context α) : Account c Layered where
  refl _ := .of_symbols_eq rfl rfl
  trans := .trans
  drop h := h
  scanned _ _ := .of_symbols_eq rfl rfl
  capped _ _ _ := .of_symbols_eq rfl rfl
  unregistered _ _ := .of_symbols_eq rfl rfl
  enter := .enter
  select _ _ := .of_symbols_eq rfl rfl
  bare_push := .bare_push
  before_push := .before_push
  pop hscope name s := .of_pop hscope name s
  settle h := h.settle

end TextGrammar.Expansion

namespace TextGrammar.Grammar

open Expansion

variable {α : Type} [Scalar α]

/-- **What is left of the pushes of a run.**  In a run in which no action pops, the layers that its
trace leaves behind lie above what was on the stack before. None of them is that of an action in a
tag exactly if all bare pushes are left, each in its place; and this is so exactly if, whenever
there was a bare push over the symbol, no layer of an action in a tag was there. All of this holds
wherever the run halts. -/
theorem Runs.layers_eq_iff {g : Grammar α} {node : Node} {e : Expanded α} (h : g.Runs node e)
    (hpop : ∀ event ∈ e.trace, event.isPopOfAction = false) (symbol : Text) :
    e.grammar.symbols.stack symbol =
        (layers symbol e.trace).map (·.rules) ++ g.symbols.stack symbol ∧
      ((∀ layer ∈ layers symbol e.trace, layer.scope = .bare) ↔
        layers symbol e.trace = bareLayers symbol e.trace) ∧
      (layers symbol e.trace = bareLayers symbol e.trace ↔ Apart symbol e.trace) := by
  obtain ⟨found, t, ⟨events, htrace, hs⟩, -, hg, he⟩ := h.account (layered_account g.context)
  have hevents : e.trace = events := by
    have hstart : g.state.trace = [] := rfl
    rw [he, htrace, hstart, List.append_nil, List.reverse_reverse]
  rw [hevents] at hpop
  obtain ⟨howed, hstack⟩ := hs hpop symbol
  rw [hevents, hg]
  exact ⟨hstack, howed.forall_bare_iff, howed.eq_bareLayers_iff⟩

/-- The rule of `s` pushes over `x`, where a layer of the tag is, and over `y`, where there is none.
The first changes places with that of the tag. -/
theorem Runs.layers_eq_iff_crossed :
    let g := ofRules [("s", ["[x:2][y:3]"])]
    let e := g.expand "#[x:1]s#".toList true
    (∀ event ∈ e.trace, event.isPopOfAction = false) ∧
      e.grammar.symbols.stack ['x'] = [[['1']]] ∧ ¬Apart ['x'] e.trace ∧
      layers ['y'] e.trace = bareLayers ['y'] e.trace ∧
      e.grammar.symbols.stack ['y'] = [[['3']]] := by
  intro g e
  have hpop : ∀ event ∈ e.trace, event.isPopOfAction = false := by decide +kernel
  obtain ⟨hx, -, hxApart⟩ := Runs.layers_eq_iff (.rule _ _ _) hpop ['x']
  obtain ⟨hy, -, hyApart⟩ := Runs.layers_eq_iff (.rule _ _ _) hpop ['y']
  refine ⟨hpop, hx.trans (by decide +kernel), fun hapart => ?_, by decide +kernel,
    hy.trans (by decide +kernel)⟩
  exact absurd (hxApart.2 hapart) (by decide +kernel)

/-- A tag-scoped value that is visible after its tag: of the lists over `x` the one that stands by
itself is taken back, and that of the tag stays. -/
theorem expand_leaked :
    let g := ofRules [("s", ["[x:2]"])]
    let e := g.expand "#[x:1]s##x#".toList true
    (∀ event ∈ e.trace, event.isPopOfAction = false) ∧ e.halt = none ∧
      e.trace.take 4 =
        [.tag ['s'], .push .before ['x'] [['1']], .push .bare ['x'] [['2']], .pop .undo ['x']] ∧
      e.node.text = ['1'] ∧ e.grammar.symbols.stack ['x'] = [[['1']]] := by
  intro g e
  exact ⟨by decide +kernel, by decide +kernel, by decide +kernel, by decide +kernel,
    by decide +kernel⟩

end TextGrammar.Grammar
