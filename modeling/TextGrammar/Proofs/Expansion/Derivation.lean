import TextGrammar.Proofs.Expansion.Inside

/-!
# Derivations

`Derives c node s n t`: from the state `s` the node `node` can be expanded to `n`, and the state is
`t` afterwards. The rules of this relation say how expansions that come to an end are put together
of others, without a word about halts and about levels. Every expansion that does not halt has a
derivation (`derives_expand`), so what holds of all derivations, by induction on them, holds of all
such expansions.
-/

namespace TextGrammar

/-- A node that is expanded to a rule, with what became of the sections. -/
def Node.gather (node : Node) (rule : Text) (children : List Node) : Node :=
  { node with
    childRule := some rule
    children
    text := children.flatMap (·.text)
    problems := node.problems ++ ((scan rule).problems ++ children.flatMap (·.problems)) }

/-- The actions of a tag. -/
def Tag.Clause.actions (clause : Tag.Clause) : List Action :=
  clause.preactions.map fun p => Action.read p.raw

namespace Expansion

variable {α : Type}

/-- What an action does once its texts are expanded, and what it records besides them. -/
def perform (scope : Scope) (action : Action) (done : List Node) (s : State α) :
    List Diagnostic × State α :=
  match action with
  | .push target _ => ([], s.push scope target (done.map (·.text)))
  | .pop target => s.pop scope target
  | .evaluate _ => ([], s)

/-- The symbols to pop in order to undo actions. -/
def undosOf (actions : List Action) : List Text :=
  actions.flatMap fun action => (action.undo?.map (·.target)).toList

variable [Scalar α]

mutual

/-- Expanding a node to another one. -/
inductive Derives (c : Context α) : Node → State α → Node → State α → Prop
  | plain {node s} (hkind : node.kind = .plain) :
    Derives c node s { node with expanded := true, text := node.raw } s
  | unparsed {node s children t} (hkind : node.kind = .unparsed)
    (h : DerivesEach c (Node.ofSections (node.depth + 1) (scan node.raw).sections) s children t) :
    Derives c node s (Node.gather { node with expanded := true } node.raw children) t
  | action {node s done t} (hkind : node.kind = .action)
    (h : DerivesEach c (actionNodes c node.depth (Action.read node.raw)) s done t) :
    Derives c node s
      (Node.report { node with expanded := true }
        (done.flatMap (·.problems) ++ (perform .bare (Action.read node.raw) done t).1))
      (perform .bare (Action.read node.raw) done t).2
  | silent {node s} (hkind : node.kind = .tag) (hread : Tag.read node.raw = .silent) :
    Derives c node s { node with expanded := true } s
  | tag {node s clause problems t n u} (hkind : node.kind = .tag)
    (hread : Tag.read node.raw = .clause clause)
    (hactions : Prepares c node.depth clause.actions (s.enter clause.symbol) problems t)
    (hmain : Resolves c clause.symbol
      ((enterClause { node with expanded := true } clause).report problems) t n u) :
    Derives c node s (n.report (u.popAll .undo (undosOf clause.actions)).1)
      (u.popAll .undo (undosOf clause.actions)).2

/-- Expanding fresh nodes one after the other. -/
inductive DerivesEach (c : Context α) : List Node → State α → List Node → State α → Prop
  | nil {s} : DerivesEach c [] s [] s
  | cons {node nodes s n t ns u} (hfresh : node.Fresh) (h : Derives c node s n t)
    (hrest : DerivesEach c nodes t ns u) : DerivesEach c (node :: nodes) s (n :: ns) u

/-- Running the actions of a tag. -/
inductive Prepares (c : Context α) :
    Nat → List Action → State α → List Diagnostic → State α → Prop
  | nil {depth s} : Prepares c depth [] s [] s
  | cons {depth action actions s done t problems u}
    (h : DerivesEach c (actionNodes c depth action) s done t)
    (hrest : Prepares c depth actions (perform .before action done t).2 problems u) :
    Prepares c depth (action :: actions) s
      (done.flatMap (·.problems) ++ (perform .before action done t).1 ++ problems) u

/-- Expanding a tag to a rule of its symbol. -/
inductive Resolves (c : Context α) : Text → Node → State α → Node → State α → Prop
  | capped {symbol node s cap} (hcap : c.settings.maxDepth.filter (· < node.depth) = some cap) :
    Resolves c symbol node s
      (Node.report { node with text := Text.placeholder symbol } [.depthExceeded symbol cap]) s
  | unselected {symbol node s} (hcap : c.settings.maxDepth.filter (· < node.depth) = none)
    (hrule : (s.select c symbol).1 = none) :
    Resolves c symbol node s (c.modifiers.applyAll (node.report (s.select c symbol).2.1))
      (s.select c symbol).2.2
  | selected {symbol node s rule children t}
    (hcap : c.settings.maxDepth.filter (· < node.depth) = none)
    (hrule : (s.select c symbol).1 = some rule)
    (h : DerivesEach c (Node.ofSections (node.depth + 1) (scan rule).sections)
      (s.select c symbol).2.2 children t) :
    Resolves c symbol node s
      (c.modifiers.applyAll ((node.report (s.select c symbol).2.1).gather rule children)) t

end

/-! ### Expansions that do not halt -/

/-- What the expander makes of a node has a derivation, unless it halts. -/
def Finishes (c : Context α) (go : Expander α) : Prop :=
  ∀ node s, node.expanded = false → (go node s).halt = none →
    Derives c node s (go node s).node (go node s).state

variable {c : Context α} {go nested selected : Expander α} {node : Node} {s : State α}
  {depth : Nat}

theorem finishes_exhaust : Finishes c exhaust := fun _ _ _ h => nomatch h

theorem derivesEach_expandEach (hgo : Finishes c go) {nodes : List Node}
    (hnodes : ∀ n ∈ nodes, n.Fresh) (h : (expandEach go nodes s).2.2 = none) :
    DerivesEach c nodes s (expandEach go nodes s).1 (expandEach go nodes s).2.1 := by
  induction nodes generalizing s with
  | nil => exact .nil
  | cons node nodes ih =>
    obtain ⟨hnode, hnodes⟩ := List.forall_mem_cons.1 hnodes
    cases hhalt : (go node s).halt with
    | some halt =>
      rw [expandEach_cons_of_halt hhalt] at h
      cases h
    | none =>
      rw [expandEach_cons_of_done hhalt] at h ⊢
      exact .cons hnode (hgo node s hnode.expanded hhalt) (ih hnodes h)

theorem derivesEach_sections (hgo : Finishes c go) {rule : Text}
    (h : (expandRule go node rule s).halt = none) :
    DerivesEach c (Node.ofSections (node.depth + 1) (scan rule).sections) s
      (expandRule go node rule s).node.children (expandRule go node rule s).state :=
  derivesEach_expandEach hgo (fun _ hn => (Node.of_mem_ofSections hn).1) h

theorem derivesEach_activate (hgo : Finishes c go) {scope : Scope} {action : Action}
    (h : (activate c go scope depth action s).halt = none) :
    ∃ done t, DerivesEach c (actionNodes c depth action) s done t ∧
      (activate c go scope depth action s).problems =
        done.flatMap (·.problems) ++ (perform scope action done t).1 ∧
      (activate c go scope depth action s).state = (perform scope action done t).2 := by
  cases action with
  | push target rules =>
    cases heach : (expandEach go (alternatives c depth rules) s).2.2 with
    | some halt =>
      rw [activate_push_of_halt heach] at h
      cases h
    | none =>
      rw [activate_push_of_done heach]
      exact ⟨_, _, derivesEach_expandEach hgo (fun _ => fresh_of_mem_alternatives) heach,
        (List.append_nil _).symm, rfl⟩
  | pop target => exact ⟨[], s, .nil, rfl, rfl⟩
  | evaluate rule =>
    have hfresh : ∀ n ∈ [Node.nested depth rule], n.Fresh :=
      List.forall_mem_singleton.2 (Node.fresh_nested depth rule)
    exact ⟨_, _, derivesEach_expandEach hgo hfresh h, (List.append_nil _).symm, rfl⟩

theorem prepares_activateEach (hgo : Finishes c go) {actions : List Action}
    (h : (activateEach c go depth actions s).1.halt = none) :
    Prepares c depth actions s (activateEach c go depth actions s).1.problems
        (activateEach c go depth actions s).1.state ∧
      (activateEach c go depth actions s).2 = undosOf actions := by
  induction actions generalizing s with
  | nil => exact ⟨.nil, rfl⟩
  | cons action actions ih =>
    cases hhalt : (activate c go .before depth action s).halt with
    | some halt =>
      rw [activateEach_cons_of_halt hhalt] at h
      cases h
    | none =>
      obtain ⟨done, t, hdone, hproblems, hstate⟩ := derivesEach_activate hgo hhalt
      rw [activateEach_cons_of_done hhalt hstate] at h ⊢
      obtain ⟨hrest, hundos⟩ := ih h
      rw [hproblems]
      exact ⟨.cons hdone hrest, by rw [hundos]; rfl⟩

theorem resolves_resolve (hselected : Finishes c selected) {symbol : Text}
    (h : (resolve c selected symbol node s).halt = none) :
    Resolves c symbol node s (resolve c selected symbol node s).node
      (resolve c selected symbol node s).state := by
  cases hcap : c.settings.maxDepth.filter (· < node.depth) with
  | some cap =>
    rw [resolve_of_capped hcap]
    exact .capped hcap
  | none =>
    cases hrule : (s.select c symbol).1 with
    | none =>
      rw [resolve_of_unselected hcap hrule]
      exact .unselected hcap hrule
    | some rule =>
      cases hhalt : (expandRule selected (node.report (s.select c symbol).2.1) rule
          (s.select c symbol).2.2).halt with
      | some halt =>
        rw [resolve_of_halt hcap hrule rfl hhalt] at h
        exact nomatch h.symm.trans hhalt
      | none =>
        rw [resolve_of_done hcap hrule rfl hhalt]
        exact .selected hcap hrule (derivesEach_sections hselected hhalt)

/-- The tag that is expanded is the one that was given, marked as expanded. -/
theorem derives_expandTag (hnested : Finishes c nested) (hselected : Finishes c selected)
    (hkind : node.kind = .tag) {begun : Node} (hbegun : { node with expanded := true } = begun)
    (h : (expandTag c nested selected begun s).halt = none) :
    Derives c node s (expandTag c nested selected begun s).node
      (expandTag c nested selected begun s).state := by
  have hraw : begun.raw = node.raw := hbegun ▸ rfl
  cases hread : Tag.read begun.raw with
  | ambiguous =>
    rw [expandTag_of_ambiguous hread] at h
    cases h
  | silent =>
    rw [expandTag_of_silent hread, ← hbegun]
    exact .silent hkind (hraw ▸ hread)
  | clause clause =>
    rcases hrun : runActions c nested begun.depth clause s with ⟨before, undos⟩
    cases hhalt : before.halt with
    | some halt =>
      rw [expandTag_of_halt hread hrun hhalt] at h
      cases h
    | none =>
      rw [expandTag_of_done hread hrun hhalt] at h ⊢
      have hprepares : Prepares c begun.depth clause.actions (s.enter clause.symbol)
          before.problems before.state ∧ undos = undosOf clause.actions := by
        unfold runActions at hrun
        have hactions : (activateEach c nested begun.depth clause.actions
            (s.enter clause.symbol)).1.halt = none := by
          rw [Tag.Clause.actions, hrun]
          exact hhalt
        simpa only [Tag.Clause.actions, hrun] using prepares_activateEach hnested hactions
      obtain ⟨hactions, rfl⟩ := hprepares
      have hmain := resolves_resolve hselected h
      subst hbegun
      exact .tag hkind hread hactions hmain

theorem finishes_expandWith (hnested : Finishes c nested) (hselected : Finishes c selected) :
    Finishes c (expandWith c nested nested selected) := by
  intro node s hexpanded h
  cases hkind : node.kind with
  | unparsed =>
    rw [expandWith_of_unparsed hexpanded hkind] at h ⊢
    exact .unparsed hkind (derivesEach_sections hnested h)
  | plain =>
    rw [expandWith_of_plain hexpanded hkind]
    exact .plain hkind
  | action =>
    rw [expandWith_of_action hexpanded hkind rfl] at h ⊢
    obtain ⟨done, t, hdone, hproblems, hstate⟩ := derivesEach_activate hnested h
    simp only [hproblems, hstate]
    exact .action hkind hdone
  | tag =>
    rw [expandWith_of_tag hexpanded hkind] at h ⊢
    exact derives_expandTag hnested hselected hkind rfl h

theorem finishes_expandWithin (hselected : Finishes c selected) (steps : Nat) :
    Finishes c (expandWithin c selected steps) := by
  induction steps with
  | zero => exact finishes_exhaust
  | succ steps ih => exact finishes_expandWith ih hselected

/-- **An expansion that does not halt has a derivation.** -/
theorem derives_expand (levels : Nat) : Finishes c (expand c levels) := by
  induction levels with
  | zero => exact fun node s => finishes_expandWithin finishes_exhaust _ node s
  | succ levels ih => exact fun node s => finishes_expandWithin ih _ node s

end Expansion

end TextGrammar
