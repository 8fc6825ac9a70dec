import TextGrammar.Proofs.Expansion.Regime

/-!
# Expanding from two states

When two states agree on everything that an expansion asks of them, and still do after each thing
it does to both, then expanding a node from either gives the same tree and halts for the same
reason, and the states left behind agree again (`Simulation.expand`). This is the regime that rules
nothing out.

The same holds of two expanders in place of one, if they agree on the nodes that are passed on
(`Simulation.expandWith`). With equality as the relation of states, this says that an expansion
depends on its expanders at these nodes only.
-/

namespace TextGrammar.Expansion

variable {α : Type}

/-- Two outcomes with the same tree, the same halt and related states. -/
structure Agree (R : State α → State α → Prop) (o o' : Outcome α) : Prop where
  node : o.node = o'.node
  halt : o.halt = o'.halt
  state : R o.state o'.state

theorem Agree.eq {o o' : Outcome α} (h : Agree Eq o o') : o = o' := by
  obtain ⟨node, state, halt⟩ := o
  obtain ⟨rfl, rfl, rfl⟩ := h
  rfl

/-- The regime that rules nothing out. -/
def Regime.free (R : State α → State α → Prop) : Regime α where
  part _ := True
  states := R
  problem _ := True
  halt _ := True

variable {R : State α → State α → Prop} {go go' : Expander α} {node : Node} {s t : State α}

theorem Agree.meets {o o' : Outcome α} (h : Agree R o o') : (Regime.free R).Meets node o o' :=
  ⟨h.node, h.halt, h.state, fun _ _ => .inr trivial, fun _ _ => trivial⟩

theorem Regime.Meets.agree {o o' : Outcome α} (h : (Regime.free R).Meets node o o') :
    Agree R o o' :=
  ⟨h.node_eq, h.halt_eq, h.states⟩

theorem agree_expandEach {nodes : List Node}
    (hgo : ∀ x ∈ nodes, ∀ s t, R s t → Agree R (go x s) (go' x t)) (h : R s t) :
    (expandEach go nodes s).1 = (expandEach go' nodes t).1 ∧
      (expandEach go nodes s).2.2 = (expandEach go' nodes t).2.2 ∧
      R (expandEach go nodes s).2.1 (expandEach go' nodes t).2.1 := by
  have heach := Regime.meets_expandEach (K := .free R) (fun x hx s t h => (hgo x hx s t h).meets) h
  exact ⟨heach.nodes_eq, heach.halt_eq, heach.states⟩

variable [Scalar α]

/-- `R` relates states that answer alike, and is kept when the same is done to both. -/
structure Simulation (c : Context α) (R : State α → State α → Prop) : Prop where
  enter : ∀ {s t}, R s t → ∀ symbol, R (s.enter symbol) (t.enter symbol)
  push : ∀ {s t}, R s t → ∀ scope name rules, R (s.push scope name rules) (t.push scope name rules)
  pop_problems : ∀ {s t}, R s t → ∀ scope name, (s.pop scope name).1 = (t.pop scope name).1
  pop : ∀ {s t}, R s t → ∀ scope name, R (s.pop scope name).2 (t.pop scope name).2
  select_rule : ∀ {s t}, R s t → ∀ name, (s.select c name).1 = (t.select c name).1
  select_problems : ∀ {s t}, R s t → ∀ name, (s.select c name).2.1 = (t.select c name).2.1
  select : ∀ {s t}, R s t → ∀ name, R (s.select c name).2.2 (t.select c name).2.2

theorem simulation_eq (c : Context α) : Simulation c Eq where
  enter h symbol := by rw [h]
  push h scope name rules := by rw [h]
  pop_problems h scope name := by rw [h]
  pop h scope name := by rw [h]
  select_rule h name := by rw [h]
  select_problems h name := by rw [h]
  select h name := by rw [h]

namespace Simulation

variable {c : Context α} {nested nested' selected selected' : Expander α}

/-- A simulation has the laws of the regime that rules nothing out. -/
theorem holds (hR : Simulation c R) : (Regime.free R).Holds c where
  inside _ _ := trivial
  scanned _ _ _ := trivial
  ambiguous _ _ := trivial
  clause _ _ _ _ := trivial
  exhausted := trivial
  capped _ _ := trivial
  unregistered _ := trivial
  enter := hR.enter
  push _ _ _ _ h _ := hR.push h _ _ _
  pop := hR.pop
  pop_problems h scope name := ⟨hR.pop_problems h scope name, fun _ _ => trivial⟩
  select _ _ _ _ h := hR.select h _
  select_problems _ _ _ _ h := ⟨hR.select_problems h _, fun _ _ => trivial⟩
  select_rule _ _ _ _ h := ⟨hR.select_rule h _, fun _ _ => trivial⟩

/-- The expanders matter at the nodes that a node passes on only. -/
theorem expandWith (hR : Simulation c R)
    (hin : ∀ x, Inside c node x → ∀ s t, R s t → Agree R (nested x s) (nested' x t))
    (hsel : ∀ x, Selectable c node x → ∀ s t, R s t → Agree R (selected x s) (selected' x t))
    (h : R s t) :
    Agree R (expandWith c nested nested selected node s)
      (Expansion.expandWith c nested' nested' selected' node t) :=
  (hR.holds.expandWith trivial (fun x hx s t h => (hin x hx s t h).meets)
    (fun x hx _ s t h => (hsel x hx s t h).meets) h).agree

/-- **From related states an expansion gives the same**, and leaves related states behind. -/
theorem expand (hR : Simulation c R) (levels : Nat) (node : Node) (s t : State α) (h : R s t) :
    Agree R (expand c levels node s) (Expansion.expand c levels node t) :=
  (hR.holds.expand levels node trivial s t h).agree

end Simulation

end TextGrammar.Expansion
