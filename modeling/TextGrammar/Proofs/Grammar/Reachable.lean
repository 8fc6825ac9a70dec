import TextGrammar.Proofs.Grammar.Runs
import TextGrammar.Proofs.Symbols

/-!
# Grammars in use

`Grammar.Reachable` are the grammars that come of building or loading one and using it, in any
order and however its expansions end. All that use leaves the declarations as they were loaded:
a store has the name it is kept under, and it is either declared, with a definition that is valid,
or made by a push, and then it holds nothing but what was pushed (`Grammar.Reachable.proper`).
-/

namespace TextGrammar

variable {α : Type} [Scalar α]

theorem Document.validate_eq_ok {d : Document α} :
    d.validate = .ok () ↔ ∀ e ∈ d.entries, e.2.fault? = none := by
  unfold validate
  induction d.entries with
  | nil => exact ⟨fun _ _ h => by simp at h, fun _ => rfl⟩
  | cons e entries ih =>
    obtain ⟨name, definition⟩ := e
    cases h : definition.fault? with
    | none => simpa [List.forM, h, bind, Except.bind] using ih
    | some fault => simp [List.forM, h, bind, Except.bind]

/-! ### Stores in use -/

/-- A store has the name it is kept under. One that a push has made has nothing declared, and one
that is declared keeps a definition without faults. -/
structure Store.Proper (key : Text) (s : Store α) : Prop where
  name : s.name = key
  base : s.dynamic = true → s.base = []
  weights : s.dynamic = true → s.weights = none
  fault : s.dynamic = false → (Symbols.definitionOf s).fault? = none

namespace Symbols

variable {t : Symbols α} {name : Text}

/-- All stores of a table are proper. -/
def Proper (t : Symbols α) : Prop := ∀ name s, t.find? name = some s → s.Proper name

theorem proper_declare (name : Text) {definition : Definition α} (h : definition.fault? = none) :
    (declare name definition).Proper name := by
  refine ⟨rfl, nofun, nofun, fun _ => ?_⟩
  cases definition with
  | single | many => rfl
  | weighted rules weights => exact h

theorem proper_ofDocument {d : Document α} (h : d.validate = .ok ()) :
    (ofDocument d).Proper := by
  intro name s hs
  rw [ofDocument, Named.find?_mapValues, Option.map_eq_some_iff] at hs
  obtain ⟨definition, hd, rfl⟩ := hs
  exact proper_declare name (Document.validate_eq_ok.1 h _ (Named.find?_eq_some.1 hd))

theorem Proper.push (h : t.Proper) (name : Text) (rules : List Text) (dynamic : Bool) :
    (t.push name rules dynamic).Proper := by
  intro key s hs
  rw [find?_push] at hs
  by_cases hkey : key = name
  · subst hkey
    rw [if_pos rfl] at hs
    cases hf : t.find? key with
    | some s' =>
      -- a store that is there keeps its name and what was declared
      rw [hf] at hs
      cases hs
      obtain ⟨hname, hbase, hweights, hfault⟩ := h key s' hf
      exact ⟨hname, hbase, hweights, hfault⟩
    | none =>
      rw [hf] at hs
      cases hs
      cases dynamic with
      | true => exact ⟨rfl, fun _ => rfl, fun _ => rfl, nofun⟩
      | false => exact ⟨rfl, nofun, nofun, fun _ => rfl⟩
  · rw [if_neg hkey] at hs
    exact h key s hs

theorem Proper.pop (h : t.Proper) (name : Text) : (t.pop name).2.Proper := by
  cases hstack : t.stack name with
  | nil => rwa [pop_of_stack_eq_nil hstack]
  | cons rules rest =>
    rw [pop_of_stack_eq_cons hstack]
    intro key s hs
    rw [Named.find?_modify] at hs
    split_ifs at hs
    · rw [Option.map_eq_some_iff] at hs
      obtain ⟨s', hf, rfl⟩ := hs
      obtain ⟨hname, hbase, hweights, hfault⟩ := h key s' hf
      exact ⟨hname, hbase, hweights, hfault⟩
    · exact h key s hs

theorem Proper.clear (h : t.Proper) : t.clear.Proper := by
  intro key s hs
  rw [Symbols.clear, Named.find?_mapValues, Option.map_eq_some_iff] at hs
  obtain ⟨s', hf, rfl⟩ := hs
  obtain ⟨hname, hbase, hweights, hfault⟩ := h key s' hf
  exact ⟨hname, hbase, hweights, hfault⟩

end Symbols

/-! ### Keeping them so -/

namespace Expansion

variable {s : State α}

theorem State.proper_popAll (h : s.symbols.Proper) (scope : Scope) (names : List Text) :
    (s.popAll scope names).2.symbols.Proper := by
  induction names generalizing s with
  | nil => exact h
  | cons name names ih => exact ih (h.pop name)

theorem proper_account (c : Context α) :
    Account c fun _ _ s t => s.symbols.Proper → t.symbols.Proper where
  refl _ h := h
  trans h h' := h' ∘ h
  drop h := h
  scanned _ _ h := h
  capped _ _ _ h := h
  unregistered _ _ h := h
  enter _ _ h := h
  select _ _ h := h
  bare_push name rules _ h := h.push name rules true
  before_push name rules _ h := h.push name rules true
  pop _ name _ h := h.pop name
  settle h hs := State.proper_popAll (h hs) .undo _

end Expansion

namespace Grammar

/-- The grammars that come of building or loading a grammar and using it. -/
inductive Reachable : Grammar α → Prop
  | build {d modifiers fallbacks source settings g}
    (h : ofDocument d modifiers fallbacks source settings = .ok g) : Reachable g
  | load {g g' : Grammar α} {d : Document α} (h : (load d).run g = (.ok (), g')) : Reachable g'
  | expand {g : Grammar α} {node : Node} {e : Expanded α} (hg : Reachable g) (h : g.Runs node e) :
    Reachable e.grammar
  | activate {g : Grammar α} (hg : Reachable g) (depth : Nat) (action : Action) :
    Reachable (g.activate depth action).2.2
  | push {g : Grammar α} (hg : Reachable g) (name : Text) (rules : List Text) (dynamic : Bool) :
    Reachable (g.push name rules dynamic)
  | pop {g : Grammar α} (hg : Reachable g) (name : Text) : Reachable (g.pop name).2
  | clear {g : Grammar α} (hg : Reachable g) : Reachable g.clear
  | equip {g : Grammar α} (hg : Reachable g) (modifiers : Registry) (fallbacks : List (Grammar α))
    (source : Source α) (settings : Settings) :
    Reachable { g with modifiers, fallbacks, source, settings }

/-- However a grammar is used, its stores stay proper. -/
theorem Reachable.proper {g : Grammar α} (h : g.Reachable) : g.symbols.Proper := by
  induction h with
  | build h =>
    obtain ⟨hvalid, rfl⟩ := eq_of_ofDocument h
    exact Symbols.proper_ofDocument hvalid
  | @load g g' d h =>
    cases hd : d.validate with
    | ok =>
      rw [load_of_valid hd] at h
      cases h
      exact Symbols.proper_ofDocument hd
    | error =>
      rw [load_of_refused hd] at h
      cases h
  | expand _ h ih =>
    obtain ⟨found, t, hk, -, hg, -⟩ := h.account (Expansion.proper_account _)
    rw [hg]
    exact hk ih
  | @activate g _ depth action ih =>
    have haccount := Expansion.proper_account g.context
    obtain ⟨hdone, hhalt⟩ := haccount.activate (haccount.expand g.settings.levels)
      (show Expansion.Scope.bare ≠ .undo by simp) depth action g.state rfl
    -- whether the action halts or not, its account is that of the stores
    cases h : (Expansion.activate g.context (Expansion.expand g.context g.settings.levels) .bare
        depth action g.state).halt with
    | none => exact hdone h ih
    | some halt => exact hhalt halt h ih
  | push _ name rules dynamic ih => exact ih.push name rules dynamic
  | pop _ name ih => exact ih.pop name
  | clear _ ih => exact ih.clear
  | equip _ _ _ _ _ ih => exact ih

end Grammar

end TextGrammar
