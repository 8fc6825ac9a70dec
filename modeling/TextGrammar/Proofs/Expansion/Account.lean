import TextGrammar.Proofs.Expansion.Expander

/-!
# Accounts of an expansion

An account relates the state before a stretch of an expansion and the state after it. It also sees
the problems that the stretch recorded and the symbols that it pushed rules over and has still to
pop. If a relation holds of each single thing that an expansion does, adds up over stretches, and
the pops at the end of a tag settle what its actions have left to pop, then it holds of every
expansion, wherever that halts (`Account.expand`).

What a node expands before it halts may have recorded problems that nobody gets to see, so an
account must bear that some of them are dropped.
-/

namespace TextGrammar.Expansion

variable {α : Type} [Scalar α]

/-- `K undos problems s t`: between `s` and `t` these problems were recorded, and these symbols
are still to be popped. -/
structure Account (c : Context α)
    (K : List Text → List Diagnostic → State α → State α → Prop) : Prop where
  refl : ∀ s, K [] [] s s
  trans : ∀ {undos undos' ds ds' s t u}, K undos ds s t → K undos' ds' t u →
    K (undos ++ undos') (ds ++ ds') s u
  drop : ∀ {undos ds ds' s t}, K undos (ds ++ ds') s t → K undos ds s t
  scanned : ∀ rule s, K [] (scan rule).problems s s
  capped : ∀ symbol cap s, K [] [.depthExceeded symbol cap] s s
  unregistered : ∀ name s, K [] [.missingModifier name] s s
  enter : ∀ symbol s, K [] [] s (s.enter symbol)
  select : ∀ name s, K [] (s.select c name).2.1 s (s.select c name).2.2
  bare_push : ∀ name rules s, K [] [] s (s.push .bare name rules)
  before_push : ∀ name rules s, K [name] [] s (s.push .before name rules)
  pop : ∀ {scope}, scope ≠ .undo → ∀ name s, K [] (s.pop scope name).1 s (s.pop scope name).2
  settle : ∀ {undos ds s t}, K undos ds s t →
    K [] (ds ++ (t.popAll .undo undos).1) s (t.popAll .undo undos).2

/-- An expander is covered when whatever it does to a node and a state is accounted for by the
problems it adds to the node. -/
def Covered (K : List Text → List Diagnostic → State α → State α → Prop) (go : Expander α) :
    Prop :=
  ∀ node s, ∃ found, (go node s).node.problems = node.problems ++ found ∧
    K [] found s (go node s).state

/-- The symbols that an action of this scope leaves to be popped. -/
def Scope.undos : Scope → Action → List Text
  | .before, action => (action.undo?.map (·.target)).toList
  | .bare, _ | .undo, _ => []

namespace Account

variable {c : Context α} {K : List Text → List Diagnostic → State α → State α → Prop}
  {nested sections selected : Expander α}

theorem covered_leave (hK : Account c K) : Covered K (leave : Expander α) :=
  fun _ s => ⟨[], (List.append_nil _).symm, hK.refl s⟩

theorem covered_exhaust (hK : Account c K) : Covered K (exhaust : Expander α) :=
  fun _ s => ⟨[], (List.append_nil _).symm, hK.refl s⟩

theorem expandEach (hK : Account c K) {go : Expander α} (hgo : Covered K go) {nodes : List Node}
    (hnodes : ∀ n ∈ nodes, n.problems = []) (s : State α) :
    K [] ((expandEach go nodes s).1.flatMap (·.problems)) s (expandEach go nodes s).2.1 := by
  induction nodes generalizing s with
  | nil => exact hK.refl s
  | cons node nodes ih =>
    obtain ⟨found, hfound, hk⟩ := hgo node s
    rw [hnodes node List.mem_cons_self, List.nil_append] at hfound
    cases h : (go node s).halt with
    | some halt =>
      -- nobody gets to see what the node has recorded before it halted
      rw [expandEach_cons_of_halt h]
      exact hK.drop hk
    | none =>
      rw [expandEach_cons_of_done h, List.flatMap_cons, hfound]
      exact hK.trans hk (ih (fun n hn => hnodes n (List.mem_cons_of_mem _ hn)) _)

theorem expandRule (hK : Account c K) {go : Expander α} (hgo : Covered K go) (node : Node)
    (rule : Text) (s : State α) :
    ∃ found, (expandRule go node rule s).node.problems = node.problems ++ found ∧
      K [] found s (expandRule go node rule s).state := by
  refine ⟨_, rfl, hK.trans (hK.scanned rule s) (hK.expandEach hgo (fun n hn => ?_) s)⟩
  exact (Node.of_mem_ofSections hn).1.problems

/-! ### Actions -/

theorem expandEach_alternatives (hK : Account c K) (hn : Covered K nested) (depth : Nat)
    (rules : Text) (s : State α) :
    K [] ((Expansion.expandEach nested (alternatives c depth rules) s).1.flatMap (·.problems)) s
      (Expansion.expandEach nested (alternatives c depth rules) s).2.1 :=
  hK.expandEach hn (fun _ h => (fresh_of_mem_alternatives h).problems) s

theorem push (hK : Account c K) {scope : Scope} (hscope : scope ≠ .undo) (target rules : Text)
    (texts : List Text) (s : State α) :
    K (scope.undos (.push target rules)) [] s (s.push scope target texts) := by
  cases scope with
  | bare => exact hK.bare_push target texts s
  | before => exact hK.before_push target texts s
  | undo => exact absurd rfl hscope

/-- An action that halts leaves nothing to be popped. -/
theorem activate (hK : Account c K) (hn : Covered K nested) {scope : Scope}
    (hscope : scope ≠ .undo) (depth : Nat) (action : Action) (s : State α) {done : Activation α}
    (hdone : activate c nested scope depth action s = done) :
    (done.halt = none → K (scope.undos action) done.problems s done.state) ∧
      (∀ halt, done.halt = some halt → K [] done.problems s done.state) := by
  subst hdone
  cases action with
  | push target rules =>
    have heach := hK.expandEach_alternatives hn depth rules s
    cases h : (Expansion.expandEach nested (alternatives c depth rules) s).2.2 with
    | some halt =>
      rw [activate_push_of_halt h]
      exact ⟨fun h => by simp at h, fun _ _ => heach⟩
    | none =>
      -- the push comes after all alternatives, so a pop is owed for it only if none halted
      rw [activate_push_of_done h]
      refine ⟨fun _ => ?_, fun _ h => by simp at h⟩
      simpa using hK.trans heach (hK.push hscope target rules _ _)
  | pop target =>
    have hundos : scope.undos (.pop target) = [] := by cases scope <;> rfl
    rw [activate_pop, hundos]
    exact ⟨fun _ => hK.pop hscope target s, fun _ _ => hK.pop hscope target s⟩
  | evaluate rule =>
    have hundos : scope.undos (.evaluate rule) = [] := by cases scope <;> rfl
    have heach := hK.expandEach hn (fun n hn => by
      rw [List.mem_singleton.1 hn]; exact (Node.fresh_nested depth rule).problems) s
    rw [activate_evaluate, hundos]
    exact ⟨fun _ => heach, fun _ _ => heach⟩

theorem activateEach (hK : Account c K) (hn : Covered K nested) (depth : Nat)
    (actions : List Action) (s : State α) :
    K (activateEach c nested depth actions s).2 (activateEach c nested depth actions s).1.problems
      s (activateEach c nested depth actions s).1.state := by
  induction actions generalizing s with
  | nil => exact hK.refl s
  | cons action actions ih =>
    obtain ⟨hdone, hhalt⟩ := hK.activate hn (show Scope.before ≠ .undo by simp) depth action s rfl
    cases h : (Expansion.activate c nested .before depth action s).halt with
    | some halt =>
      rw [activateEach_cons_of_halt h]
      exact hhalt halt h
    | none =>
      rw [activateEach_cons_of_done h rfl]
      exact hK.trans (hdone h) (ih _)

/-! ### Tags -/

theorem applyAll (hK : Account c K) (r : Registry) (node : Node) (s : State α) :
    ∃ found, (r.applyAll node).problems = node.problems ++ found ∧ K [] found s s := by
  unfold Registry.applyAll
  generalize node.modifiers = references
  induction references generalizing node with
  | nil => exact ⟨[], (List.append_nil _).symm, hK.refl s⟩
  | cons reference references ih =>
    obtain ⟨found, hfound, hk⟩ := ih (r.apply node reference)
    rw [List.foldl_cons, hfound]
    rcases r.problems_apply node reference with h | h
    · exact ⟨found, by rw [h], hk⟩
    · exact ⟨_, by rw [h, List.append_assoc], hK.trans (hK.unregistered _ s) hk⟩

theorem resolve (hK : Account c K) (hs : Covered K selected) (symbol : Text) (node : Node)
    (s : State α) :
    ∃ found, (resolve c selected symbol node s).node.problems = node.problems ++ found ∧
      K [] found s (resolve c selected symbol node s).state := by
  cases hcap : c.settings.maxDepth.filter (· < node.depth) with
  | some cap =>
    rw [resolve_of_capped hcap]
    exact ⟨_, rfl, hK.capped symbol cap s⟩
  | none =>
    have hselect := hK.select symbol s
    cases hrule : (s.select c symbol).1 with
    | none =>
      rw [resolve_of_unselected hcap hrule]
      obtain ⟨found, hfound, hk⟩ :=
        hK.applyAll c.modifiers (node.report (s.select c symbol).2.1) (s.select c symbol).2.2
      exact ⟨_, by rw [hfound, Node.problems_report, List.append_assoc], hK.trans hselect hk⟩
    | some rule =>
      obtain ⟨found, hfound, hk⟩ := hK.expandRule hs (node.report (s.select c symbol).2.1) rule
        (s.select c symbol).2.2
      rw [Node.problems_report, List.append_assoc] at hfound
      cases hhalt : (Expansion.expandRule selected (node.report (s.select c symbol).2.1) rule
          (s.select c symbol).2.2).halt with
      | some halt =>
        rw [resolve_of_halt hcap hrule rfl hhalt]
        exact ⟨_, hfound, hK.trans hselect hk⟩
      | none =>
        rw [resolve_of_done hcap hrule rfl hhalt]
        obtain ⟨found', hfound', hk'⟩ := hK.applyAll c.modifiers _ _
        exact ⟨_, by rw [hfound', hfound, List.append_assoc], hK.trans (hK.trans hselect hk) hk'⟩

theorem expandTag (hK : Account c K) (hn : Covered K nested) (hs : Covered K selected)
    (node : Node) (s : State α) :
    ∃ found, (expandTag c nested selected node s).node.problems = node.problems ++ found ∧
      K [] found s (expandTag c nested selected node s).state := by
  cases h : Tag.read node.raw with
  | ambiguous =>
    rw [expandTag_of_ambiguous h]
    exact ⟨[], (List.append_nil _).symm, hK.refl s⟩
  | silent =>
    rw [expandTag_of_silent h]
    exact ⟨[], (List.append_nil _).symm, hK.refl s⟩
  | clause clause =>
    rcases hrun : runActions c nested node.depth clause s with ⟨before, undos⟩
    -- up to here the pops of the actions are owed; the end of the tag settles them
    have hbefore : K undos (clause.problems ++ before.problems) s before.state := by
      have hscan : K [] clause.problems s s := by
        rw [(Tag.of_read_eq_clause h).1]
        exact hK.scanned node.raw s
      have hactions := hK.activateEach hn node.depth
        (clause.preactions.map fun p => Action.read p.raw) (s.enter clause.symbol)
      unfold runActions at hrun
      rw [hrun] at hactions
      simpa using hK.trans hscan (hK.trans (hK.enter clause.symbol s) hactions)
    cases hhalt : before.halt with
    | some halt =>
      rw [expandTag_of_halt h hrun hhalt]
      refine ⟨_, ?_, hK.settle hbefore⟩
      simp [Outcome.settle]
    | none =>
      rw [expandTag_of_done h hrun hhalt]
      obtain ⟨found, hfound, hk⟩ := hK.resolve hs clause.symbol
        ((enterClause node clause).report before.problems) before.state
      refine ⟨_, ?_, hK.settle (by simpa using hK.trans hbefore hk)⟩
      simp [Outcome.settle, hfound]

/-! ### Whole expansions -/

/-- A node is accounted for if the nodes are that it passes on. -/
theorem expandWith (hK : Account c K) (hn : Covered K nested) (hsec : Covered K sections)
    (hs : Covered K selected) : Covered K (expandWith c nested sections selected) := by
  intro node s
  cases hexp : node.expanded with
  | true =>
    rw [expandWith_of_expanded hexp]
    exact ⟨[], (List.append_nil _).symm, hK.refl s⟩
  | false =>
    cases hkind : node.kind with
    | unparsed =>
      rw [expandWith_of_unparsed hexp hkind]
      exact hK.expandRule hsec _ _ s
    | plain =>
      rw [expandWith_of_plain hexp hkind]
      exact ⟨[], (List.append_nil _).symm, hK.refl s⟩
    | tag =>
      rw [expandWith_of_tag hexp hkind]
      exact hK.expandTag hn hs _ s
    | action =>
      obtain ⟨hdone, hhalt⟩ := hK.activate hn (show Scope.bare ≠ .undo by simp) node.depth
        (Action.read node.raw) s rfl
      rw [expandWith_of_action hexp hkind rfl]
      refine ⟨_, rfl, ?_⟩
      cases h : (Expansion.activate c nested .bare node.depth (Action.read node.raw) s).halt with
      | some halt => exact hhalt halt h
      | none => exact hdone h

theorem expandWithin (hK : Account c K) (hs : Covered K selected) (steps : Nat) :
    Covered K (expandWithin c selected steps) := by
  induction steps with
  | zero => exact hK.covered_exhaust
  | succ steps ih => exact hK.expandWith ih ih hs

/-- **What holds of each thing an expansion does holds of every expansion**, also of one that
halts. -/
theorem expand (hK : Account c K) (levels : Nat) : Covered K (expand c levels) := by
  induction levels with
  | zero => exact fun node s => hK.expandWithin hK.covered_exhaust _ node s
  | succ levels ih => exact fun node s => hK.expandWithin ih _ node s

theorem expandShallow (hK : Account c K) (levels : Nat) : Covered K (expandShallow c levels) := by
  have hleave := hK.covered_leave
  cases levels with
  | zero =>
    exact fun node s =>
      hK.expandWith (hK.expandWithin hK.covered_exhaust _) hleave hleave node s
  | succ levels =>
    exact fun node s =>
      hK.expandWith (hK.expandWithin (hK.expand levels) _) hleave hleave node s

end Account

end TextGrammar.Expansion
