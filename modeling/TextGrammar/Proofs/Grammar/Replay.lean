import TextGrammar.Proofs.Expansion.Follow
import TextGrammar.Proofs.Grammar.Runs

/-!
# Replay

An expansion is a function of the values it draws. Two sources that agree as far as the first
expansion draws give the same expansion, which then draws as far from the second, and all that the
grammars are left to differ in is the source (`Grammar.expand_withSource`). So whoever replays the
values of one expansion replays the expansion, and those that follow it.

The state of the second run is at every point that of the first, with equally many values drawn
from the other source (`Expansion.State.Replayed`). A selection that stays within what the whole
expansion draws gets the same value from both.
-/

namespace TextGrammar

variable {α : Type}

/-- The source with so many more values drawn. -/
def Source.skip (s : Source α) (k : Nat) : Source α := { s with position := s.position + k }

theorem Source.peek_skip [Scalar α] (s : Source α) (k i : Nat) :
    (s.skip k).peek i = s.peek (k + i) := by
  simp only [skip, peek, Nat.add_assoc]

theorem Source.skip_skip (s : Source α) (j k : Nat) : (s.skip j).skip k = s.skip (j + k) := by
  simp only [skip, Nat.add_assoc]

namespace Expansion

/-- `s` has drawn from `source`, and `t` is the same with as many values drawn from `source'`. -/
def State.Replayed (source source' : Source α) (s t : State α) : Prop :=
  ∃ k, s.source = source.skip k ∧ t = { s with source := source'.skip k }

/-- At most so many values are drawn from a source. -/
def Bounds.drawing (source : Source α) (k : Nat) : Bounds α where
  problem _ := True
  halt _ := True
  source s := s.position ≤ source.position + k

variable [Scalar α] {source source' : Source α} {k : Nat}

theorem State.Replayed.select {s t : State α} (h : s.Replayed source source' t)
    (hagree : ∀ i < k, source.peek i = source'.peek i) {c : Context α} {name : Text}
    (hsource : (s.select c name).2.2.source.position ≤ source.position + k) :
    (s.select c name).1 = (t.select c name).1 ∧ (s.select c name).2.1 = (t.select c name).2.1 ∧
      (s.select c name).2.2.Replayed source source' (t.select c name).2.2 := by
  obtain ⟨j, hs, rfl⟩ := h
  simp only [State.select] at hsource ⊢
  cases hresolve : s.symbols.resolve? c.fallbacks name with
  | none =>
    simp only [Symbols.select_of_unresolved hresolve]
    exact ⟨trivial, trivial, j, hs, rfl⟩
  | some store =>
    simp only [Symbols.select_of_resolved hresolve, hs] at hsource ⊢
    have hj : j < k := by
      change source.position + j + 1 ≤ source.position + k at hsource
      omega
    have hvalue : (source.skip j).next.1 = (source'.skip j).next.1 := by
      change (source.skip j).peek 0 = (source'.skip j).peek 0
      rw [Source.peek_skip, Source.peek_skip]
      exact hagree j hj
    rw [hvalue]
    exact ⟨rfl, rfl, j + 1, rfl, rfl⟩

theorem Bounds.hold_drawing (c : Context α) (hagree : ∀ i < k, source.peek i = source'.peek i) :
    (drawing source k).Hold (State.Replayed source source') c c where
  separator := rfl
  uncapped _ h := h
  capped _ _ _ h _ := h
  registered _ _ := rfl
  enter := by
    rintro s _ ⟨j, hs, rfl⟩ symbol
    exact ⟨j, hs, rfl⟩
  push := by
    rintro s _ ⟨j, hs, rfl⟩ scope name rules
    exact ⟨j, hs, rfl⟩
  pop_problems := by
    rintro s _ ⟨j, hs, rfl⟩ scope name
    rfl
  pop := by
    rintro s _ ⟨j, hs, rfl⟩ scope name
    exact ⟨j, hs, rfl⟩
  select h _ _ hsource := h.select hagree hsource
  unseen _ _ _ := trivial
  undrawn _ h := Nat.le_of_succ_le h

end Expansion

namespace Grammar

/-- The grammar with another source. -/
def withSource (g : Grammar α) (source : Source α) : Grammar α := { g with source }

variable [Scalar α] {g : Grammar α} {source : Source α} {rule : Text} {keepEscapes : Bool}

/-- How many values the expansion of a rule draws. -/
def draws (g : Grammar α) (rule : Text) (keepEscapes : Bool) : Nat :=
  (g.expand rule keepEscapes).grammar.source.position - g.source.position

theorem draws_eq (g : Grammar α) (rule : Text) (keepEscapes : Bool) :
    g.draws rule keepEscapes =
      (Expansion.expand g.context g.settings.levels (.root rule) g.state).state.source.position -
        g.source.position := by
  cases keepEscapes <;> rfl

/-- Both runs draw what the first one draws, each from its own source. -/
theorem expand_of_agree
    (hagree : ∀ i < g.draws rule keepEscapes, g.source.peek i = source.peek i) :
    let k := g.draws rule keepEscapes
    let e := g.expand rule keepEscapes
    e.grammar.source = g.source.skip k ∧
      (g.withSource source).expand rule keepEscapes =
        { e with grammar := e.grammar.withSource (source.skip k) } := by
  intro k e
  let o := Expansion.expand g.context g.settings.levels (.root rule) g.state
  let o' := Expansion.expand g.context g.settings.levels (.root rule) (g.withSource source).state
  have hk : k = o.state.source.position - g.source.position := draws_eq g rule keepEscapes
  have hkeep : (Expansion.Bounds.drawing g.source k).Keep o.node.problems o.halt o.state.source :=
    ⟨fun _ _ => trivial, fun _ _ => trivial, by simp only [Expansion.Bounds.drawing]; omega⟩
  have hsame : Expansion.Agree (Expansion.State.Replayed g.source source) o o' :=
    (Expansion.Bounds.hold_drawing g.context hagree).expand g.settings.levels (.root rule) _ _
      ⟨0, rfl, rfl⟩ hkeep
  obtain ⟨j, hsource, hstate⟩ := hsame.state
  obtain rfl : k = j := by
    rw [hk, hsource]
    exact Nat.add_sub_cancel_left _ _
  have htrace : o.state.trace = o'.state.trace := by rw [hstate]
  have hgrammar : (g.withSource source).withState o'.state =
      (g.withState o.state).withSource (source.skip k) := by
    rw [hstate]
    rfl
  refine ⟨(congrArg Grammar.source (grammar_expand g rule keepEscapes)).trans hsource, ?_⟩
  exact expandWithin_of_agree rfl rfl hsame htrace (·.withSource (source.skip k)) hgrammar _

/-- **Equal values give equal expansions.**  If another source agrees with that of a grammar as far
as the expansion of a rule draws, then the expansion from it gives the same tree or halts for the
same reason, does the same pushes and pops, draws as many values, and leaves the same grammar but
for the source. What is expanded next depends on the values behind these alone. -/
theorem expand_withSource
    (hagree : ∀ i < g.draws rule keepEscapes, g.source.peek i = source.peek i) :
    let k := g.draws rule keepEscapes
    let e := g.expand rule keepEscapes
    let e' := (g.withSource source).expand rule keepEscapes
    e.grammar.source = g.source.skip k ∧
      e' = { e with grammar := e.grammar.withSource (source.skip k) } ∧
      ∀ next keepNext,
        (∀ i < e.grammar.draws next keepNext,
          g.source.peek (k + i) = source.peek (k + i)) →
        let f := e.grammar.expand next keepNext
        f.grammar.source = g.source.skip (k + e.grammar.draws next keepNext) ∧
          e'.grammar.expand next keepNext =
            { f with grammar :=
                f.grammar.withSource (source.skip (k + e.grammar.draws next keepNext)) } := by
  intro k e e'
  obtain ⟨hsource, hsame⟩ : e.grammar.source = g.source.skip k ∧
      e' = { e with grammar := e.grammar.withSource (source.skip k) } := expand_of_agree hagree
  refine ⟨hsource, hsame, fun next keepNext hnext => ?_⟩
  have hrest : ∀ i < e.grammar.draws next keepNext,
      e.grammar.source.peek i = (source.skip k).peek i := by
    intro i hi
    rw [hsource, Source.peek_skip, Source.peek_skip]
    exact hnext i hi
  intro f
  obtain ⟨hsource', hsame'⟩ := expand_of_agree hrest
  rw [hsource, Source.skip_skip] at hsource'
  rw [Source.skip_skip] at hsame'
  exact ⟨hsource', hsame ▸ hsame'⟩

/-- The first expansion halts with a rule pushed, which the second one uses. The sources differ in
the value behind those of both. -/
theorem expand_withSource_halted :
    let g := ofRules [("a", ["[b:z]"]), ("b", ["y"]), ("c", ["#x[d:1]y#"])]
    let source : Source Float := { stream := fun n => if n < 3 then 0 else 0.5 }
    let e := g.expand "#a##c#".toList true
    let e' := (g.withSource source).expand "#a##c#".toList true
    g.draws "#a##c#".toList true = 2 ∧ e.halt = some (.ambiguousTag "x[d:1]y".toList) ∧
      e' = { e with grammar := e.grammar.withSource (source.skip 2) } ∧
      (e.grammar.expand "#b#".toList false).node.text = "z".toList ∧
      e'.grammar.expand "#b#".toList false =
        { e.grammar.expand "#b#".toList false with
          grammar :=
            (e.grammar.expand "#b#".toList false).grammar.withSource (source.skip 3) } := by
  intro g source e e'
  have hvalue : ∀ i < 3, g.source.peek i = source.peek i := by
    intro i hi
    have hi' : 0 + i < 3 := by omega
    simp only [Source.peek, source, if_pos hi']
    rfl
  have hdraws : g.draws "#a##c#".toList true = 2 := by decide +kernel
  have hnext : e.grammar.draws "#b#".toList false = 1 := by decide +kernel
  have hagree : ∀ i < g.draws "#a##c#".toList true, g.source.peek i = source.peek i :=
    fun i hi => hvalue i (by omega)
  obtain ⟨-, hsame, hcontinue⟩ := expand_withSource hagree
  have hrest : ∀ i < e.grammar.draws "#b#".toList false,
      g.source.peek (g.draws "#a##c#".toList true + i) =
        source.peek (g.draws "#a##c#".toList true + i) :=
    fun i hi => hvalue _ (by omega)
  obtain ⟨-, hcontinued⟩ := hcontinue "#b#".toList false hrest
  rw [hdraws] at hsame
  rw [hdraws, hnext] at hcontinued
  exact ⟨hdraws, by decide +kernel, hsame, by decide +kernel, hcontinued⟩

end Grammar

end TextGrammar
