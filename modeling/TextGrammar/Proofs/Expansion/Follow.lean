import TextGrammar.Proofs.Expansion.Account
import TextGrammar.Proofs.Expansion.Resolve
import TextGrammar.Proofs.Expansion.Simulation
import TextGrammar.Proofs.Symbols

/-!
# Following an expansion

Expansions in two contexts, or from two states, part only where something comes up that the two do
not share: a tag that one of the caps is above, a name that one context knows, a value that one
source would give. `Bounds` say what a first expansion may record, what it may halt for and how far
it may draw. What a whole expansion records and draws is more than what any part of it does, so if
the whole is within bounds then all its parts are, and a second expansion follows it: it gives the
same tree, halts for the same reason, and the states that are left are related as those before were
(`Bounds.Hold.expandWith` for one step, `Bounds.Hold.expand` for all).

In a simulation the two agree whatever comes up; here they need to agree within the bounds only.
-/

namespace TextGrammar

/-! ### Modifiers -/

namespace Registry

theorem mem_problems_foldl (r : Registry) {references : List Text} {n : Node} {d : Diagnostic}
    (h : d ∈ n.problems) : d ∈ (references.foldl r.apply n).problems := by
  induction references generalizing n with
  | nil => exact h
  | cons reference references ih =>
    refine ih ?_
    rcases r.problems_apply n reference with hsame | hmore
    · rwa [hsame]
    · rw [hmore]
      exact List.mem_append_left _ h

/-- Two registries do the same to a node, if they differ in no name but those that the first would
report. -/
theorem applyAll_congr {r r' : Registry} {problem : Diagnostic → Prop}
    (hr : ∀ name, (r.find? name = none → problem (.missingModifier name)) →
      r'.find? name = r.find? name) {n : Node}
    (h : ∀ d ∈ (r.applyAll n).problems, problem d) : r'.applyAll n = r.applyAll n := by
  unfold applyAll at h ⊢
  generalize n.modifiers = references at h ⊢
  induction references generalizing n with
  | nil => rfl
  | cons reference references ih =>
    rw [List.foldl_cons] at h
    have hfind : r'.find? (ModifierSpec.read reference).name =
        r.find? (ModifierSpec.read reference).name := by
      refine hr _ fun hnone => h _ (r.mem_problems_foldl ?_)
      simp [apply, hnone]
    have happly : r'.apply n reference = r.apply n reference := by simp only [apply, hfind]
    rw [List.foldl_cons, List.foldl_cons, happly]
    exact ih h

end Registry

namespace Expansion

variable {α : Type}

/-! ### Bounds -/

/-- How far a first expansion may go for a second one to follow it. -/
structure Bounds (α : Type) where
  /-- What it may record. -/
  problem : Diagnostic → Prop
  /-- What it may halt for. -/
  halt : Halt → Prop
  /-- The sources that it may leave. -/
  source : Source α → Prop

namespace Bounds

/-- What was recorded, the halt if there was one, and the source that is left are within
bounds. -/
structure Keep (B : Bounds α) (problems : List Diagnostic) (halt : Option Halt)
    (source : Source α) : Prop where
  problem : ∀ d ∈ problems, B.problem d
  halt : ∀ reason, halt = some reason → B.halt reason
  source : B.source source

/-- Within bounds, what `go` makes of a node is what `go'` makes of it from a related state. -/
def Follows (B : Bounds α) (R : State α → State α → Prop) (go go' : Expander α) (x : Node) :
    Prop :=
  ∀ s t, R s t → B.Keep (go x s).node.problems (go x s).halt (go x s).state.source →
    Agree R (go x s) (go' x t)

theorem follows_exhaust (B : Bounds α) {R : State α → State α → Prop} (x : Node) :
    B.Follows R exhaust exhaust x :=
  fun _ _ h _ => ⟨rfl, rfl, h⟩

/-- If the source after a stretch of an expansion is within bounds, so was the one before it. -/
def Undrawn (B : Bounds α) : List Text → List Diagnostic → State α → State α → Prop :=
  fun _ _ s t => B.source t.source → B.source s.source

theorem Keep.mono {B : Bounds α} {whole part : List Diagnostic} {halt : Option Halt}
    {source source' : Source α} (h : B.Keep whole halt source) (hsub : part ⊆ whole)
    (hsource : B.source source → B.source source') : B.Keep part halt source' :=
  ⟨fun d hd => h.problem d (hsub hd), h.halt, hsource h.source⟩

end Bounds

theorem State.source_popAll (s : State α) (scope : Scope) (names : List Text) :
    (s.popAll scope names).2.source = s.source := by
  induction names generalizing s with
  | nil => rfl
  | cons name names ih => exact ih (s.pop scope name).2

variable [Scalar α]

theorem State.source_select (s : State α) (c : Context α) (name : Text) :
    (s.select c name).2.2.source = s.source ∨
      (s.select c name).2.2.source = s.source.next.2 := by
  simp only [State.select]
  cases h : s.symbols.resolve? c.fallbacks name with
  | none => exact .inl (by rw [Symbols.select_of_unresolved h])
  | some store => exact .inr (by rw [Symbols.select_of_resolved h])

/-- What single steps have to do for the second expansion to follow: both do the same, unless the
first goes beyond the bounds, and if it does that, it has gone beyond them for good. -/
structure Bounds.Hold (B : Bounds α) (R : State α → State α → Prop) (c c' : Context α) :
    Prop where
  separator : c'.settings.separator = c.settings.separator
  uncapped : ∀ depth, c.settings.maxDepth.filter (· < depth) = none →
    c'.settings.maxDepth.filter (· < depth) = none
  capped : ∀ depth cap symbol, c.settings.maxDepth.filter (· < depth) = some cap →
    B.problem (.depthExceeded symbol cap) → c'.settings.maxDepth.filter (· < depth) = some cap
  registered : ∀ name, (c.modifiers.find? name = none → B.problem (.missingModifier name)) →
    c'.modifiers.find? name = c.modifiers.find? name
  enter : ∀ {s t}, R s t → ∀ symbol, R (s.enter symbol) (t.enter symbol)
  push : ∀ {s t}, R s t → ∀ scope name rules, R (s.push scope name rules) (t.push scope name rules)
  pop_problems : ∀ {s t}, R s t → ∀ scope name, (s.pop scope name).1 = (t.pop scope name).1
  pop : ∀ {s t}, R s t → ∀ scope name, R (s.pop scope name).2 (t.pop scope name).2
  select : ∀ {s t}, R s t → ∀ name, (∀ d ∈ (s.select c name).2.1, B.problem d) →
    B.source (s.select c name).2.2.source →
      (s.select c name).1 = (t.select c' name).1 ∧
        (s.select c name).2.1 = (t.select c' name).2.1 ∧
          R (s.select c name).2.2 (t.select c' name).2.2
  /-- A halt loses what was recorded before it, so nothing of that can have been out of bounds. -/
  unseen : ∀ reason, B.halt reason → ∀ d, B.problem d
  undrawn : ∀ source : Source α, B.source source.next.2 → B.source source

namespace Bounds.Hold

variable {B : Bounds α} {R : State α → State α → Prop} {c c' : Context α}
  {go go' nested nested' selected selected' : Expander α} {node : Node} {s t : State α}
  {depth : Nat}

theorem account (hB : B.Hold R c c') : Account c B.Undrawn where
  refl _ h := h
  trans h h' := h ∘ h'
  drop h := h
  scanned _ _ h := h
  capped _ _ _ h := h
  unregistered _ _ h := h
  enter _ _ h := h
  select name s h := by
    rcases s.source_select c name with hsame | hnext
    · rwa [hsame] at h
    · rw [hnext] at h
      exact hB.undrawn _ h
  bare_push _ _ _ h := h
  before_push _ _ _ h := h
  pop _ _ _ h := h
  settle h hsource := h (State.source_popAll _ _ _ ▸ hsource)

/-! ### Sequences and rules -/

theorem expandEach (hB : B.Hold R c c') (hback : Covered B.Undrawn go) {nodes : List Node}
    (hfresh : ∀ x ∈ nodes, x.Fresh) (hgo : ∀ x ∈ nodes, B.Follows R go go' x) (h : R s t)
    (hkeep : B.Keep ((expandEach go nodes s).1.flatMap (·.problems)) (expandEach go nodes s).2.2
      (expandEach go nodes s).2.1.source) :
    (expandEach go nodes s).1 = (expandEach go' nodes t).1 ∧
      (expandEach go nodes s).2.2 = (expandEach go' nodes t).2.2 ∧
      R (expandEach go nodes s).2.1 (expandEach go' nodes t).2.1 := by
  induction nodes generalizing s t with
  | nil => exact ⟨rfl, rfl, h⟩
  | cons x nodes ih =>
    obtain ⟨hx, hnodes⟩ := List.forall_mem_cons.1 hgo
    obtain ⟨-, hfresh⟩ := List.forall_mem_cons.1 hfresh
    cases hhalt : (go x s).halt with
    | some reason =>
      rw [expandEach_cons_of_halt hhalt] at hkeep ⊢
      -- what `x` has recorded is lost, but since it may halt it may record anything
      have hagree := hx s t h
        ⟨fun d _ => hB.unseen reason (hkeep.halt reason rfl) d, hhalt ▸ hkeep.halt, hkeep.source⟩
      rw [expandEach_cons_of_halt (hagree.halt ▸ hhalt)]
      exact ⟨rfl, rfl, hagree.state⟩
    | none =>
      rw [expandEach_cons_of_done hhalt, List.flatMap_cons] at hkeep
      rw [expandEach_cons_of_done hhalt]
      have hsource : B.source (go x s).state.source :=
        hB.account.expandEach hback (fun n hn => (hfresh n hn).problems) _ hkeep.source
      have hagree := hx s t h
        ⟨fun d hd => hkeep.problem d (List.mem_append_left _ hd), hhalt ▸ nofun, hsource⟩
      obtain ⟨hrest, hrestHalt, hrestState⟩ :=
        ih hfresh hnodes hagree.state (hkeep.mono (List.subset_append_right _ _) id)
      rw [expandEach_cons_of_done (hagree.halt ▸ hhalt), hagree.node, hrest]
      exact ⟨rfl, hrestHalt, hrestState⟩

theorem expandRule (hB : B.Hold R c c') (hback : Covered B.Undrawn go) {rule : Text}
    (hgo : ∀ x ∈ Node.ofSections (node.depth + 1) (scan rule).sections, B.Follows R go go' x)
    (h : R s t)
    (hkeep : B.Keep (expandRule go node rule s).node.problems (expandRule go node rule s).halt
      (expandRule go node rule s).state.source) :
    Agree R (expandRule go node rule s) (expandRule go' node rule t) := by
  obtain ⟨hnodes, hhalt, hstate⟩ := hB.expandEach hback (fun x hx => (Node.of_mem_ofSections hx).1)
    hgo h (hkeep.mono (fun d hd => List.mem_append_right _ (List.mem_append_right _ hd)) id)
  exact ⟨by simp only [Expansion.expandRule, hnodes], hhalt, hstate⟩

/-! ### Actions -/

theorem activate (hB : B.Hold R c c') (hback : Covered B.Undrawn nested) {scope : Scope}
    {action : Action} (hgo : ∀ x ∈ actionNodes c depth action, B.Follows R nested nested' x)
    (h : R s t) {done done' : Activation α} (hdone : activate c nested scope depth action s = done)
    (hdone' : Expansion.activate c' nested' scope depth action t = done')
    (hkeep : B.Keep done.problems done.halt done.state.source) :
    done.problems = done'.problems ∧ done.halt = done'.halt ∧ R done.state done'.state := by
  have hfresh : ∀ x ∈ actionNodes c depth action, x.Fresh := by
    intro x hx
    obtain ⟨text, rfl, -⟩ := of_mem_actionNodes hx
    exact Node.fresh_nested depth text
  subst hdone hdone'
  cases action with
  | pop target => exact ⟨hB.pop_problems h scope target, rfl, hB.pop h scope target⟩
  | evaluate rule =>
    rw [activate_evaluate] at hkeep ⊢
    rw [activate_evaluate]
    obtain ⟨hnodes, hhalt, hstate⟩ := hB.expandEach hback hfresh hgo h hkeep
    exact ⟨congrArg (·.flatMap (·.problems)) hnodes, hhalt, hstate⟩
  | push target rules =>
    have halternatives : alternatives c' depth rules = alternatives c depth rules := by
      simp only [alternatives, hB.separator]
    cases hhalt : (Expansion.expandEach nested (alternatives c depth rules) s).2.2 with
    | some reason =>
      rw [activate_push_of_halt hhalt] at hkeep ⊢
      obtain ⟨hnodes, hhalt', hstate⟩ := hB.expandEach hback hfresh hgo h (hhalt.symm ▸ hkeep)
      simp only [actionNodes, ← halternatives] at hnodes hhalt' hstate hhalt
      rw [activate_push_of_halt (hhalt' ▸ hhalt), ← halternatives, hnodes]
      exact ⟨rfl, rfl, hstate⟩
    | none =>
      rw [activate_push_of_done hhalt] at hkeep ⊢
      obtain ⟨hnodes, hhalt', hstate⟩ := hB.expandEach hback hfresh hgo h (hhalt.symm ▸ hkeep)
      simp only [actionNodes, ← halternatives] at hnodes hhalt' hstate hhalt
      rw [activate_push_of_done (hhalt' ▸ hhalt), ← halternatives, hnodes]
      exact ⟨rfl, rfl, hB.push hstate _ _ _⟩

theorem activateEach (hB : B.Hold R c c') (hback : Covered B.Undrawn nested)
    {actions : List Action}
    (hgo : ∀ action ∈ actions, ∀ x ∈ actionNodes c depth action, B.Follows R nested nested' x)
    (h : R s t) {done done' : Activation α × List Text}
    (hdone : activateEach c nested depth actions s = done)
    (hdone' : Expansion.activateEach c' nested' depth actions t = done')
    (hkeep : B.Keep done.1.problems done.1.halt done.1.state.source) :
    (done.1.problems = done'.1.problems ∧ done.1.halt = done'.1.halt ∧
      R done.1.state done'.1.state) ∧ done.2 = done'.2 := by
  subst hdone hdone'
  induction actions generalizing s t with
  | nil => exact ⟨⟨rfl, rfl, h⟩, rfl⟩
  | cons action actions ih =>
    obtain ⟨haction, hactions⟩ := List.forall_mem_cons.1 hgo
    cases hhalt : (Expansion.activate c nested .before depth action s).halt with
    | some reason =>
      rw [activateEach_cons_of_halt hhalt] at hkeep ⊢
      obtain ⟨hproblems, hhalt', hstate⟩ :=
        hB.activate hback haction h rfl rfl (hhalt.symm ▸ hkeep)
      rw [activateEach_cons_of_halt (hhalt' ▸ hhalt), hproblems]
      exact ⟨⟨rfl, rfl, hstate⟩, rfl⟩
    | none =>
      rw [activateEach_cons_of_done hhalt rfl] at hkeep ⊢
      have hfirst : B.Keep (Expansion.activate c nested .before depth action s).problems
          (Expansion.activate c nested .before depth action s).halt
          (Expansion.activate c nested .before depth action s).state.source :=
        ⟨fun d hd => hkeep.problem d (List.mem_append_left _ hd), hhalt ▸ nofun,
          hB.account.activateEach hback depth actions _ hkeep.source⟩
      obtain ⟨hproblems, hhalt', hstate⟩ := hB.activate hback haction h rfl rfl hfirst
      obtain ⟨⟨hrest, hrestHalt, hrestState⟩, hundos⟩ :=
        ih hactions hstate (hkeep.mono (List.subset_append_right _ _) id)
      rw [activateEach_cons_of_done (hhalt' ▸ hhalt) rfl, hproblems, hrest, hundos]
      exact ⟨⟨rfl, hrestHalt, hrestState⟩, rfl⟩

/-! ### Tags -/

theorem popAll (hB : B.Hold R c c') (scope : Scope) (names : List Text) (h : R s t) :
    (s.popAll scope names).1 = (t.popAll scope names).1 ∧
      R (s.popAll scope names).2 (t.popAll scope names).2 := by
  induction names generalizing s t with
  | nil => exact ⟨rfl, h⟩
  | cons name names ih =>
    obtain ⟨hproblems, hstate⟩ := ih (hB.pop h scope name)
    simp only [State.popAll]
    exact ⟨by rw [hB.pop_problems h scope name, hproblems], hstate⟩

theorem settle (hB : B.Hold R c c') {o o' : Outcome α} (h : Agree R o o') (undos : List Text) :
    Agree R (o.settle undos) (o'.settle undos) := by
  obtain ⟨hproblems, hstate⟩ := hB.popAll .undo undos h.state
  exact ⟨by simp only [Outcome.settle, h.node, hproblems], h.halt, hstate⟩

/-- What a selected rule is expanded to has to be followed above the cap only. -/
theorem resolve (hB : B.Hold R c c') (hback : Covered B.Undrawn selected) {symbol : Text}
    (hsel : c.settings.maxDepth.filter (· < node.depth) = none → ∀ rule,
      ∀ x ∈ Node.ofSections (node.depth + 1) (scan rule).sections,
        B.Follows R selected selected' x)
    (h : R s t)
    (hkeep : B.Keep (resolve c selected symbol node s).node.problems
      (resolve c selected symbol node s).halt (resolve c selected symbol node s).state.source) :
    Agree R (resolve c selected symbol node s) (resolve c' selected' symbol node t) := by
  cases hcap : c.settings.maxDepth.filter (· < node.depth) with
  | some cap =>
    rw [resolve_of_capped hcap] at hkeep ⊢
    have hmem := hkeep.problem (.depthExceeded symbol cap)
      (List.mem_append_right _ List.mem_cons_self)
    rw [resolve_of_capped (hB.capped _ cap symbol hcap hmem)]
    exact ⟨rfl, rfl, h⟩
  | none =>
    have hcap' := hB.uncapped node.depth hcap
    cases hrule : (s.select c symbol).1 with
    | none =>
      rw [resolve_of_unselected hcap hrule] at hkeep ⊢
      obtain ⟨hsame, hproblems, hstate⟩ := hB.select h symbol
        (fun d hd => hkeep.problem d
          (c.modifiers.mem_problems_foldl (List.mem_append_right _ hd))) hkeep.source
      rw [resolve_of_unselected hcap' (hsame ▸ hrule), ← hproblems,
        Registry.applyAll_congr hB.registered hkeep.problem]
      exact ⟨rfl, rfl, hstate⟩
    | some rule =>
      let main := Expansion.expandRule selected (node.report (s.select c symbol).2.1) rule
        (s.select c symbol).2.2
      let main' := Expansion.expandRule selected' (node.report (t.select c' symbol).2.1) rule
        (t.select c' symbol).2.2
      -- the rule is expanded within bounds, and what was selected for it is within them too
      have hmain : B.Keep main.node.problems main.halt main.state.source →
          (t.select c' symbol).1 = some rule ∧ Agree R main main' := by
        intro hmain
        have hsource : B.source (s.select c symbol).2.2.source := by
          obtain ⟨_, -, hundrawn⟩ := hB.account.expandRule hback
            (node.report (s.select c symbol).2.1) rule (s.select c symbol).2.2
          exact hundrawn hmain.source
        obtain ⟨hsame, hproblems, hstate⟩ := hB.select h symbol
          (fun d hd => hmain.problem d (List.mem_append_left _ (List.mem_append_right _ hd)))
          hsource
        refine ⟨hsame ▸ hrule, ?_⟩
        simp only [main', ← hproblems]
        exact hB.expandRule hback (hsel hcap rule) hstate hmain
      cases hhalt : main.halt with
      | some reason =>
        rw [resolve_of_halt hcap hrule rfl hhalt] at hkeep ⊢
        obtain ⟨hrule', hagree⟩ := hmain hkeep
        rw [resolve_of_halt hcap' hrule' rfl (hagree.halt ▸ hhalt)]
        exact hagree
      | none =>
        rw [resolve_of_done hcap hrule rfl hhalt] at hkeep ⊢
        obtain ⟨hrule', hagree⟩ := hmain ⟨fun d hd => hkeep.problem d
          (c.modifiers.mem_problems_foldl hd), hhalt ▸ nofun, hkeep.source⟩
        rw [resolve_of_done hcap' hrule' rfl (hagree.halt ▸ hhalt)]
        refine ⟨?_, rfl, hagree.state⟩
        change c.modifiers.applyAll main.node = c'.modifiers.applyAll main'.node
        rw [← hagree.node, Registry.applyAll_congr hB.registered hkeep.problem]

theorem expandTag (hB : B.Hold R c c') (hkind : node.kind = .tag)
    (hnested : Covered B.Undrawn nested) (hselected : Covered B.Undrawn selected)
    (hin : ∀ x, Inside c node x → B.Follows R nested nested' x)
    (hsel : ∀ x, Selectable c node x → B.Follows R selected selected' x) (h : R s t)
    (hkeep : B.Keep (expandTag c nested selected node s).node.problems
      (expandTag c nested selected node s).halt
      (expandTag c nested selected node s).state.source) :
    Agree R (expandTag c nested selected node s) (expandTag c' nested' selected' node t) := by
  cases hread : Tag.read node.raw with
  | ambiguous =>
    rw [expandTag_of_ambiguous hread, expandTag_of_ambiguous hread]
    exact ⟨rfl, rfl, h⟩
  | silent =>
    rw [expandTag_of_silent hread, expandTag_of_silent hread]
    exact ⟨rfl, rfl, h⟩
  | clause clause =>
    have hactions : ∀ action ∈ clause.preactions.map fun p => Action.read p.raw,
        ∀ x ∈ actionNodes c node.depth action, B.Follows R nested nested' x := by
      intro action haction x hx
      obtain ⟨p, hp, rfl⟩ := List.mem_map.1 haction
      exact hin x (.preaction hkind hread hp hx)
    rcases hrun : runActions c nested node.depth clause s with ⟨before, undos⟩
    rcases hrun' : runActions c' nested' node.depth clause t with ⟨before', undos'⟩
    have hbefore : B.Keep before.problems before.halt before.state.source →
        (before.problems = before'.problems ∧ before.halt = before'.halt ∧
          R before.state before'.state) ∧ undos = undos' :=
      hB.activateEach hnested hactions (hB.enter h clause.symbol) hrun hrun'
    cases hhalt : before.halt with
    | some reason =>
      rw [expandTag_of_halt hread hrun hhalt] at hkeep ⊢
      have hproblems : before.problems ⊆ (((enterClause node clause).report before.problems).report
          (before.state.popAll .undo undos).1).problems := fun d hd =>
        List.mem_append_left _ (List.mem_append_right _ hd)
      obtain ⟨⟨hsame, hhalt', hstate⟩, rfl⟩ := hbefore
        (hhalt.symm ▸ hkeep.mono hproblems fun hsource => State.source_popAll _ _ _ ▸ hsource)
      rw [expandTag_of_halt hread hrun' (hhalt' ▸ hhalt), ← hsame]
      have hmain : Agree R
          { node := (enterClause node clause).report before.problems
            state := before.state
            halt := some reason }
          { node := (enterClause node clause).report before.problems
            state := before'.state
            halt := some reason } := ⟨rfl, rfl, hstate⟩
      exact hB.settle hmain undos
    | none =>
      rw [expandTag_of_done hread hrun hhalt] at hkeep ⊢
      let entered := (enterClause node clause).report before.problems
      have hresolved := hkeep.mono (List.subset_append_left _ _)
        fun hsource => State.source_popAll _ _ _ ▸ hsource
      have hsource : B.source before.state.source := by
        obtain ⟨_, -, hundrawn⟩ := hB.account.resolve hselected clause.symbol entered before.state
        exact hundrawn hresolved.source
      -- what the actions have recorded is there before anything is selected
      obtain ⟨⟨hsame, hhalt', hstate⟩, rfl⟩ := hbefore
        ⟨fun d hd => hresolved.problem d (mem_problems_resolve (List.mem_append_right _ hd) _ _),
          hhalt ▸ nofun, hsource⟩
      rw [expandTag_of_done hread hrun' (hhalt' ▸ hhalt), ← hsame]
      have hmain : Agree R (Expansion.resolve c selected clause.symbol entered before.state)
          (Expansion.resolve c' selected' clause.symbol entered before'.state) :=
        hB.resolve hselected (fun hcap rule x hx => hsel x ⟨hkind, hcap, rule, hx⟩) hstate
          hresolved
      exact hB.settle hmain undos

/-! ### Nodes -/

/-- **Within bounds one step is followed**, if the nodes that it passes on are. -/
theorem expandWith (hB : B.Hold R c c') (hnested : Covered B.Undrawn nested)
    (hselected : Covered B.Undrawn selected)
    (hin : ∀ x, Inside c node x → B.Follows R nested nested' x)
    (hsel : ∀ x, Selectable c node x → B.Follows R selected selected' x) :
    B.Follows R (expandWith c nested nested selected)
      (Expansion.expandWith c' nested' nested' selected') node := by
  intro s t h hkeep
  cases hexpanded : node.expanded with
  | true =>
    rw [expandWith_of_expanded hexpanded, expandWith_of_expanded hexpanded]
    exact ⟨rfl, rfl, h⟩
  | false =>
    cases hkind : node.kind with
    | plain =>
      rw [expandWith_of_plain hexpanded hkind, expandWith_of_plain hexpanded hkind]
      exact ⟨rfl, rfl, h⟩
    | unparsed =>
      rw [expandWith_of_unparsed hexpanded hkind] at hkeep ⊢
      rw [expandWith_of_unparsed hexpanded hkind]
      exact hB.expandRule hnested (fun x hx => hin x (.part hkind hx)) h hkeep
    | tag =>
      rw [expandWith_of_tag hexpanded hkind] at hkeep ⊢
      rw [expandWith_of_tag hexpanded hkind]
      exact hB.expandTag hkind hnested hselected (fun x hx => hin x (hx.of_eq rfl rfl rfl))
        (fun x hx => hsel x (hx.of_eq rfl rfl)) h hkeep
    | action =>
      rw [expandWith_of_action hexpanded hkind rfl] at hkeep ⊢
      obtain ⟨hproblems, hhalt, hstate⟩ := hB.activate hnested
        (fun x hx => hin x (.action hkind hx)) h rfl rfl
        (hkeep.mono (List.subset_append_right _ _) id)
      rw [expandWith_of_action hexpanded hkind rfl, hproblems]
      exact ⟨rfl, hhalt, hstate⟩

theorem expandWithin (hB : B.Hold R c c') (hback : Covered B.Undrawn selected)
    (hsel : ∀ x, B.Follows R selected selected' x) (steps : Nat) (node : Node) :
    B.Follows R (expandWithin c selected steps) (Expansion.expandWithin c' selected' steps)
      node := by
  induction steps generalizing node with
  | zero => exact B.follows_exhaust node
  | succ steps ih =>
    exact hB.expandWith (hB.account.expandWithin hback steps) hback (fun x _ => ih x)
      fun x _ => hsel x

/-- **Within bounds a whole expansion is followed.** -/
theorem expand (hB : B.Hold R c c') (levels : Nat) (node : Node) :
    B.Follows R (expand c levels) (Expansion.expand c' levels) node := by
  induction levels generalizing node with
  | zero =>
    exact fun s t h hkeep =>
      hB.expandWithin hB.account.covered_exhaust B.follows_exhaust _ node s t h hkeep
  | succ levels ih =>
    exact fun s t h hkeep => hB.expandWithin (hB.account.expand levels) ih _ node s t h hkeep

end Bounds.Hold

end Expansion

end TextGrammar
