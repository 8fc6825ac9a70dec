import TextGrammar.Proofs.Grammar.Runs
import TextGrammar.Proofs.Symbols

/-!
# Scope discipline

As long as no action pops, an expansion only ever adds to the stacks of pushed rules, and of what
it adds only the pushes of actions that stand by themselves stay: each tag takes back as many lists
as its own actions have pushed, however often the same symbol is pushed over in between, and
wherever the expansion halts.

The account that carries this (`Scoped`) counts on every stack the lists above those that were
there before: one for each push of a bare action, and one for each pop that a tag still owes.
-/

namespace TextGrammar.Expansion

namespace Event

/-- A pop by an action, not by the end of a tag. -/
def isPopOfAction : Event → Bool
  | pop .bare _ | pop .before _ => true
  | pop .undo _ | push _ _ _ | tag _ => false

/-- A push over a symbol by an action that stands by itself. -/
def isBarePush (symbol : Text) : Event → Bool
  | push .bare name _ => name == symbol
  | push .before _ _ | push .undo _ _ | pop _ _ | tag _ => false

end Event

variable {α : Type}

/-- Unless an action popped something, no pop went wrong, and every stack has grown by one list
for each bare push and for each pop that is owed. -/
def Scoped (undos : List Text) (problems : List Diagnostic) (s t : State α) : Prop :=
  ∃ events, t.trace = events ++ s.trace ∧
    ((∀ e ∈ events, e.isPopOfAction = false) →
      (∀ name, .popWithoutPush name ∉ problems) ∧
        ∀ name, ∃ top, t.symbols.stack name = top ++ s.symbols.stack name ∧
          top.length = events.countP (·.isBarePush name) + undos.count name)

namespace Scoped

variable {s t u : State α} {undos undos' : List Text} {ds ds' : List Diagnostic}

theorem of_stack_eq (events : List Event) (htrace : t.trace = events ++ s.trace)
    (hstack : t.symbols = s.symbols) (hpush : ∀ name, events.countP (·.isBarePush name) = 0)
    (hds : ∀ name, .popWithoutPush name ∉ ds) : Scoped [] ds s t :=
  ⟨events, htrace, fun _ => ⟨hds, fun name => ⟨[], by rw [hstack]; rfl, by simp [hpush]⟩⟩⟩

theorem trans (h : Scoped undos ds s t) (h' : Scoped undos' ds' t u) :
    Scoped (undos ++ undos') (ds ++ ds') s u := by
  obtain ⟨events, htrace, hs⟩ := h
  obtain ⟨events', htrace', hs'⟩ := h'
  -- the trace lists the newest first, and so do the stacks
  refine ⟨events' ++ events, by rw [htrace', htrace, List.append_assoc], fun hfree => ?_⟩
  obtain ⟨hds, hstack⟩ := hs fun e he => hfree e (List.mem_append_right _ he)
  obtain ⟨hds', hstack'⟩ := hs' fun e he => hfree e (List.mem_append_left _ he)
  refine ⟨fun name hname => ?_, fun name => ?_⟩
  · exact (List.mem_append.1 hname).elim (hds name) (hds' name)
  · obtain ⟨top, htop, hlen⟩ := hstack name
    obtain ⟨top', htop', hlen'⟩ := hstack' name
    refine ⟨top' ++ top, by rw [htop', htop, List.append_assoc], ?_⟩
    rw [List.length_append, List.countP_append, List.count_append, hlen, hlen']
    omega

theorem push {scope : Scope} (hscope : scope ≠ .undo) (name : Text) (rules : List Text)
    (s : State α) :
    Scoped (if scope = .before then [name] else []) [] s (s.push scope name rules) := by
  refine ⟨[.push scope name rules], rfl, fun _ => ⟨by simp, fun key => ?_⟩⟩
  have hstack : (s.push scope name rules).symbols.stack key =
      if key = name then rules :: s.symbols.stack key else s.symbols.stack key :=
    Symbols.stack_push s.symbols name rules key
  by_cases hkey : key = name
  · refine ⟨[rules], by rw [hstack, if_pos hkey]; rfl, ?_⟩
    cases scope <;> simp_all [Event.isBarePush]
  · refine ⟨[], by rw [hstack, if_neg hkey]; rfl, ?_⟩
    cases scope <;> simp_all [Event.isBarePush, Ne.symm hkey]

/-- A pop that is owed finds a list to take away, and is then no longer owed. -/
theorem undo {name : Text} (h : Scoped (name :: undos) ds s t) :
    Scoped undos (ds ++ (t.pop .undo name).1) s (t.pop .undo name).2 := by
  obtain ⟨events, htrace, hs⟩ := h
  refine ⟨.pop .undo name :: events, by rw [List.cons_append, ← htrace]; rfl, fun hfree => ?_⟩
  obtain ⟨hds, hstack⟩ := hs fun e he => hfree e (List.mem_cons_of_mem _ he)
  obtain ⟨top, htop, hlen⟩ := hstack name
  -- the pop that is owed is counted, so there is a list above those that were there before
  rw [List.count_cons_self] at hlen
  obtain ⟨rules, rest, rfl⟩ : ∃ rules rest, top = rules :: rest :=
    List.exists_cons_of_length_pos (by omega)
  have hproblems : (t.pop .undo name).1 = [] :=
    congrArg Prod.fst (Symbols.pop_of_stack_eq_cons htop)
  rw [hproblems, List.append_nil]
  refine ⟨hds, fun key => ?_⟩
  have hafter : (t.pop .undo name).2.symbols.stack key =
      if key = name then (t.symbols.stack key).tail else t.symbols.stack key :=
    Symbols.stack_pop t.symbols name key
  rw [List.countP_cons_of_neg (by simp [Event.isBarePush])]
  by_cases hkey : key = name
  · subst hkey
    refine ⟨rest, by rw [hafter, if_pos rfl, htop]; rfl, ?_⟩
    rw [List.length_cons] at hlen
    omega
  · obtain ⟨top, htop, hlen⟩ := hstack key
    refine ⟨top, by rw [hafter, if_neg hkey, htop], ?_⟩
    rw [hlen, List.count_cons_of_ne (Ne.symm hkey)]

theorem settle (h : Scoped undos ds s t) :
    Scoped [] (ds ++ (t.popAll .undo undos).1) s (t.popAll .undo undos).2 := by
  induction undos generalizing ds t with
  | nil => simpa [State.popAll] using h
  | cons name undos ih => simpa [State.popAll] using ih h.undo

/-- A pop by an action voids what is said of the stacks. -/
theorem of_pop {scope : Scope} (hscope : scope ≠ .undo) (name : Text) (s : State α) :
    Scoped [] (s.pop scope name).1 s (s.pop scope name).2 := by
  refine ⟨[.pop scope name], rfl, fun hfree => ?_⟩
  have := hfree _ List.mem_cons_self
  cases scope <;> simp_all [Event.isPopOfAction]

theorem drop (h : Scoped undos (ds ++ ds') s t) : Scoped undos ds s t := by
  obtain ⟨events, htrace, hs⟩ := h
  refine ⟨events, htrace, fun hfree => ⟨fun name hname => ?_, (hs hfree).2⟩⟩
  exact (hs hfree).1 name (List.mem_append_left _ hname)

end Scoped

theorem State.popWithoutPush_not_mem_select [Scalar α] (s : State α) (c : Context α)
    (symbol name : Text) : .popWithoutPush name ∉ (s.select c symbol).2.1 := by
  simp only [State.select, Symbols.select, Symbols.unresolved]
  split <;> split <;> simp

theorem scoped_account [Scalar α] (c : Context α) : Account c Scoped where
  refl s := Scoped.of_stack_eq [] rfl rfl (by simp) (by simp)
  trans := Scoped.trans
  drop := Scoped.drop
  scanned rule s := by
    refine Scoped.of_stack_eq [] rfl rfl (by simp) fun name hname => ?_
    simpa [Diagnostic.isOfScan] using isOfScan_of_mem_scan hname
  capped symbol cap s := Scoped.of_stack_eq [] rfl rfl (by simp) (by simp)
  unregistered name s := Scoped.of_stack_eq [] rfl rfl (by simp) (by simp)
  enter symbol s :=
    Scoped.of_stack_eq [.tag symbol] rfl rfl (by simp [Event.isBarePush]) (by simp)
  select name s :=
    Scoped.of_stack_eq [] rfl rfl (by simp) (State.popWithoutPush_not_mem_select s c name)
  bare_push name rules s := Scoped.push (by simp) name rules s
  before_push name rules s := Scoped.push (by simp) name rules s
  pop hscope name s := Scoped.of_pop hscope name s
  settle := Scoped.settle

end TextGrammar.Expansion

namespace TextGrammar.Grammar

open Expansion

variable {α : Type} [Scalar α]

/-- **Scope discipline.**  In a run in which no action pops, every stack keeps the lists it had and
grows by one list for each bare push over its symbol; without bare pushes all stacks are as they
were. No pop goes wrong. All of this holds wherever the run halts. -/
theorem Runs.stack_eq_append {g : Grammar α} {node : Node} {e : Expanded α} (h : g.Runs node e)
    (hpop : ∀ event ∈ e.trace, event.isPopOfAction = false) :
    (∀ name, ∃ top, e.grammar.symbols.stack name = top ++ g.symbols.stack name ∧
        top.length = e.trace.countP (·.isBarePush name)) ∧
      ((∀ name, e.trace.countP (·.isBarePush name) = 0) →
        ∀ name, e.grammar.symbols.stack name = g.symbols.stack name) ∧
      ∃ found, e.node.problems = node.problems ++ found ∧ ∀ name, .popWithoutPush name ∉ found := by
  obtain ⟨found, t, ⟨events, htrace, hs⟩, hfound, hg, he⟩ := h.account (scoped_account g.context)
  have hevents : e.trace = events.reverse := by
    rw [he, htrace]
    exact congrArg List.reverse (List.append_nil events)
  rw [hevents] at hpop
  obtain ⟨hds, hstack⟩ := hs fun event hevent => hpop event (List.mem_reverse.2 hevent)
  have hall : ∀ name, ∃ top, e.grammar.symbols.stack name = top ++ g.symbols.stack name ∧
      top.length = e.trace.countP (·.isBarePush name) := by
    intro name
    obtain ⟨top, htop, hlen⟩ := hstack name
    rw [hg, hevents, List.countP_reverse]
    exact ⟨top, htop, by simpa using hlen⟩
  refine ⟨hall, fun hnone name => ?_, found, hfound, hds⟩
  obtain ⟨top, htop, hlen⟩ := hall name
  rw [hnone name, List.length_eq_zero_iff] at hlen
  rw [htop, hlen, List.nil_append]

/-- A tag pushes over `x`; the rule of its symbol pushes over `x` once more and then halts. Of the
two lists the tag takes one back. -/
theorem Runs.stack_eq_append_halted :
    let g := (ofRules [("s", ["[x:2]#y[z:0]w#"])]).push ['x'] [['0']] true
    let e := g.expand "#[x:1]s#".toList true
    e.halt = some (.ambiguousTag "y[z:0]w".toList) ∧
      (∀ event ∈ e.trace, event.isPopOfAction = false) ∧
      ∃ top, e.grammar.symbols.stack ['x'] = top ++ [[['0']]] ∧ top.length = 1 := by
  intro g e
  have hpop : ∀ event ∈ e.trace, event.isPopOfAction = false := by decide +kernel
  refine ⟨by decide +kernel, hpop, ?_⟩
  obtain ⟨top, htop, hlen⟩ := (Runs.stack_eq_append (.rule _ _ _) hpop).1 ['x']
  exact ⟨top, htop, hlen.trans (by decide +kernel)⟩

end TextGrammar.Grammar
