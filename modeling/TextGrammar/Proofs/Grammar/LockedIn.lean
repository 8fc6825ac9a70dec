import TextGrammar.Proofs.Expansion.Derivation
import TextGrammar.Proofs.Expansion.Tree
import TextGrammar.Proofs.Grammar.ScopedPush
import TextGrammar.Proofs.Selection

/-!
# Values that are locked in

With `#[hero:#name#]story#` a story keeps to one hero: the alternative is expanded once, and until
the end of the tag its text is all there is on top of the stack of `hero`. If the text is plain, and
nothing else pushes or pops `hero` meanwhile, it is what every `#hero#` in the story comes to,
however deep in it and whatever is drawn (`Expansion.locked_of_in`).

Pushes and pops of a symbol are counted (`State.touches`). While the count stands still the stack of
the symbol does too, whatever is done to other symbols; and it never falls, so where it is the same
at both ends of an expansion it has stood still in every part (`Held.trans`).
-/

namespace TextGrammar

variable {α : Type}

/-- The text is empty, or there is nothing but plain text in it: expanded, it gives itself. -/
def Text.Plain (t : Text) : Prop := t = [] ∨ (scan t).sections = [⟨.plain, t⟩]

namespace Expansion

/-- The symbol is pushed over or popped. -/
def Event.touches (symbol : Text) : Event → Bool
  | push _ name _ | pop _ name => name == symbol
  | tag _ => false

/-- How often a symbol was pushed over or popped. -/
def State.touches (s : State α) (symbol : Text) : Nat := s.trace.countP (·.touches symbol)

theorem State.touches_push (s : State α) (scope : Scope) (symbol : Text) (rules : List Text) :
    (s.push scope symbol rules).touches symbol = s.touches symbol + 1 :=
  List.countP_cons_of_pos (by simp [Event.touches])

theorem State.touches_pop (s : State α) (scope : Scope) (symbol : Text) :
    (s.pop scope symbol).2.touches symbol = s.touches symbol + 1 :=
  List.countP_cons_of_pos (by simp [Event.touches])

end Expansion

/-! ### Trees with a locked value -/

/-- If the node is a tag of the symbol within the cap, it has the value for a rule; and if it has no
modifiers, for a text. -/
def Node.Locked (cap : Option Nat) (symbol value : Text) (n : Node) : Prop :=
  n.kind = .tag → n.symbol = some symbol → (∀ m ∈ cap, n.depth ≤ m) →
    n.childRule = some value ∧ (n.modifiers = [] → n.text = value)

/-- The same of all nodes in a tree. -/
def Node.LockedTree (cap : Option Nat) (symbol value : Text) (tree : Node) : Prop :=
  ∀ n : Node, n.In tree → n.Locked cap symbol value

section Trees

variable {cap : Option Nat} {x value : Text} {n : Node}

theorem Node.Locked.tree (h : n.Locked cap x value)
    (hchildren : ∀ child ∈ n.children, child.LockedTree cap x value) :
    n.LockedTree cap x value := by
  rintro m (_ | ⟨hchild, hm⟩)
  · exact h
  · exact hchildren _ hchild m hm

theorem Node.Locked.leaf (h : n.Locked cap x value) (hchildren : n.children = []) :
    n.LockedTree cap x value := by
  refine h.tree fun child hchild => ?_
  rw [hchildren] at hchild
  cases hchild

theorem Node.locked_of_kind {kind : SectionKind} (hkind : n.kind = kind) (hne : kind ≠ .tag) :
    n.Locked cap x value :=
  fun htag => absurd (hkind.symm.trans htag) hne

theorem Node.LockedTree.report (h : n.LockedTree cap x value) (problems : List Diagnostic) :
    (n.report problems).LockedTree cap x value := by
  have hroot : n.Locked cap x value := h n (.root n)
  exact Node.Locked.tree hroot fun child hchild m hm => h m (.child hchild hm)

/-- Modifiers change the text of a tag that has any, and nothing below it. -/
theorem Node.lockedTree_applyAll (r : Registry)
    (hroot : n.kind = .tag → n.symbol = some x → (∀ m ∈ cap, n.depth ≤ m) →
      n.childRule = some value ∧ n.text = value)
    (hchildren : ∀ child ∈ n.children, child.LockedTree cap x value) :
    (r.applyAll n).LockedTree cap x value := by
  obtain ⟨text, problems, heq⟩ := r.applyAll_eq n
  have htext : n.modifiers = [] → text = n.text := by
    intro hmodifiers
    rw [← r.applyAll_of_unmodified hmodifiers, heq]
  rw [heq]
  refine Node.Locked.tree (fun hkind hx hwithin => ?_) hchildren
  obtain ⟨hrule, hplain⟩ := hroot hkind hx hwithin
  exact ⟨hrule, fun hmodifiers => (htext hmodifiers).trans hplain⟩

end Trees

namespace Expansion

open Grammar (ofRules)

/-! ### Steps that leave a symbol alone -/

/-- The symbol `x` may be pushed over and popped between the states; if it is not, its stack stays,
and if the value alone is on top of it, then `P`. -/
structure Held (x value : Text) (P : Prop) (s t : State α) : Prop where
  le : s.touches x ≤ t.touches x
  stack : t.touches x = s.touches x → t.symbols.stack x = s.symbols.stack x
  holds : t.touches x = s.touches x → (s.symbols.stack x).head? = some [value] → P

variable {s t u : State α} {x value : Text} {P Q : Prop}

theorem Held.trans (h : Held x value P s t) (h' : Held x value Q t u) :
    Held x value (P ∧ Q) s u := by
  have hle := h.le
  have hle' := h'.le
  refine ⟨hle.trans hle', fun hsame => ?_, fun hsame htop => ?_⟩
  · rw [h'.stack (by omega), h.stack (by omega)]
  · refine ⟨h.holds (by omega) htop, h'.holds (by omega) ?_⟩
    rwa [h.stack (by omega)]

theorem Held.imp (h : Held x value P s t) (hPQ : P → Q) : Held x value Q s t :=
  ⟨h.le, h.stack, fun hsame htop => hPQ (h.holds hsame htop)⟩

theorem Held.of_eq (htouches : t.touches x = s.touches x) (hsymbols : t.symbols = s.symbols)
    (h : (s.symbols.stack x).head? = some [value] → P) : Held x value P s t :=
  ⟨htouches.ge, fun _ => by rw [hsymbols], fun _ => h⟩

theorem Held.refl (s : State α) (h : P) : Held x value P s s := .of_eq rfl rfl fun _ => h

theorem held_enter (s : State α) (symbol : Text) : Held x value True s (s.enter symbol) :=
  .of_eq (List.countP_cons_of_neg (by simp [Event.touches])) rfl fun _ => trivial

theorem Held.of_touch {name : Text} {event : Event} (htrace : t.trace = event :: s.trace)
    (hevent : event.touches x = (name == x))
    (hstack : x ≠ name → t.symbols.stack x = s.symbols.stack x) : Held x value True s t := by
  have hcount : t.touches x = s.touches x + if name = x then 1 else 0 := by
    simp only [State.touches, htrace, List.countP_cons, hevent, beq_iff_eq]
  refine ⟨by omega, fun hsame => hstack ?_, fun _ _ => trivial⟩
  rintro rfl
  rw [if_pos rfl] at hcount
  omega

theorem held_push (s : State α) (scope : Scope) (name : Text) (rules : List Text) :
    Held x value True s (s.push scope name rules) :=
  .of_touch rfl rfl fun hne => (Symbols.stack_push s.symbols name rules x).trans (if_neg hne)

theorem held_pop (s : State α) (scope : Scope) (name : Text) :
    Held x value True s (s.pop scope name).2 :=
  .of_touch rfl rfl fun hne => (Symbols.stack_pop s.symbols name x).trans (if_neg hne)

theorem held_popAll (s : State α) (scope : Scope) (names : List Text) :
    Held x value True s (s.popAll scope names).2 := by
  induction names generalizing s with
  | nil => exact .refl s trivial
  | cons name names ih => exact ((held_pop s scope name).trans (ih _)).imp fun _ => trivial

theorem held_perform (scope : Scope) (action : Action) (done : List Node) (s : State α) :
    Held x value True s (perform scope action done s).2 := by
  cases action with
  | push target rules => exact held_push s scope target _
  | pop target => exact held_pop s scope target
  | evaluate rule => exact .refl s trivial

variable [Scalar α] {c : Context α}

/-- A selection takes the value if it is all there is on top of the stack, whatever is drawn and
whatever lies below it or in a fallback. -/
theorem State.select_of_top (htop : (s.symbols.stack x).head? = some [value]) :
    (s.select c x).1 = some value := by
  let store := s.symbols.store x
  obtain ⟨rest, hoverrides⟩ : ∃ rest, store.overrides = [value] :: rest := by
    rw [Symbols.stack_eq_overrides] at htop
    exact List.head?_eq_some_iff.1 htop
  have hactive : store.active = [value] := by rw [Store.active, hoverrides, List.headD_cons]
  have hresolve : s.symbols.resolve? c.fallbacks x = some store := by
    have hown : s.symbols.active? x = some store := by
      rw [Symbols.active?_eq]
      exact if_neg (by simp [store, hactive])
    rw [Symbols.resolve?, hown, Option.some_or]
  obtain ⟨rule, hrule⟩ := Store.exists_pickUniform (List.cons_ne_nil value []) s.source.next.1
  have hpick : store.pick s.source.next.1 = some rule := by
    rw [Store.pick, hoverrides]
    exact hrule
  have hmem : rule ∈ store.active := Store.mem_active_of_pick hpick
  rw [hactive, List.mem_singleton] at hmem
  rw [State.select, Symbols.select_of_resolved hresolve]
  exact hmem ▸ hpick

theorem held_select (s : State α) (symbol : Text) :
    Held x value (symbol = x → (s.select c symbol).1 = some value) s (s.select c symbol).2.2 := by
  refine .of_eq rfl rfl fun htop hsymbol => ?_
  rw [hsymbol]
  exact State.select_of_top htop

/-! ### Expansions -/

theorem DerivesEach.text_of_plain {depth : Nat} {ns : List Node}
    (hvalue : value.Plain)
    (h : DerivesEach c (Node.ofSections depth (scan value).sections) s ns t) :
    ns.flatMap (·.text) = value := by
  rcases hvalue with rfl | hplain
  · have hnone : DerivesEach c [] s ns t := h
    cases hnone
    rfl
  · rw [hplain] at h
    have hone : DerivesEach c [{ raw := value, kind := .plain, depth, index := 0 }] s ns t := h
    cases hone with
    | cons hfresh hfirst hrest =>
      cases hrest
      cases hfirst with
      | plain => exact List.append_nil value
      | unparsed hkind | action hkind | silent hkind | tag hkind => cases hkind

mutual

/-- In whatever a node is expanded to the value is locked, if the symbol is left alone. -/
theorem Derives.held (hvalue : value.Plain) :
    ∀ {node n : Node} {s t : State α}, Derives c node s n t → node.Fresh →
      Held x value (n.LockedTree c.settings.maxDepth x value) s t
  | _, _, s, _, .plain hkind, hfresh =>
    .refl s (Node.Locked.leaf (Node.locked_of_kind hkind nofun) hfresh.children)
  | _, _, s, _, .silent _ _, hfresh => by
    refine .refl s (Node.Locked.leaf (fun _ hsymbol => ?_) hfresh.children)
    cases hfresh.symbol.symm.trans hsymbol
  | _, _, _, _, .unparsed hkind h, _ =>
    (h.held hvalue).imp fun hbelow => Node.Locked.tree (Node.locked_of_kind hkind nofun) hbelow
  | _, _, _, _, .action hkind h, hfresh =>
    ((h.held hvalue).trans (held_perform _ _ _ _)).imp fun _ =>
      Node.Locked.leaf (Node.locked_of_kind hkind nofun) hfresh.children
  | _, _, s, _, @Derives.tag _ _ _ _ _ clause _ _ _ u _ _ hactions hmain, hfresh => by
    have hprepared := (held_enter s clause.symbol).trans (hactions.held hvalue)
    have hresolved := hprepared.trans (hmain.held hvalue rfl hfresh.children)
    exact (hresolved.trans (held_popAll u .undo _)).imp fun h => h.1.2.report _

theorem DerivesEach.held (hvalue : value.Plain) :
    ∀ {nodes ns : List Node} {s t : State α}, DerivesEach c nodes s ns t →
      Held x value (∀ n ∈ ns, n.LockedTree c.settings.maxDepth x value) s t
  | _, _, s, _, .nil => .refl s nofun
  | _, _, _, _, .cons hfresh h hrest =>
    ((h.held hvalue hfresh).trans (hrest.held hvalue)).imp fun hboth =>
      List.forall_mem_cons.2 hboth

theorem Prepares.held (hvalue : value.Plain) :
    ∀ {depth : Nat} {actions : List Action} {ds : List Diagnostic} {s t : State α},
      Prepares c depth actions s ds t → Held x value True s t
  | _, _, _, s, _, .nil => .refl s trivial
  | _, _, _, _, _, .cons h hrest =>
    (((h.held hvalue).trans (held_perform _ _ _ _)).trans (hrest.held hvalue)).imp
      fun _ => trivial

theorem Resolves.held (hvalue : value.Plain) :
    ∀ {symbol : Text} {node n : Node} {s t : State α}, Resolves c symbol node s n t →
      node.symbol = some symbol → node.children = [] →
      Held x value (n.LockedTree c.settings.maxDepth x value) s t
  | _, node, _, s, _, .capped hcap, _, hchildren => by
    refine .refl s (Node.Locked.leaf (fun _ _ hwithin => ?_) hchildren)
    obtain ⟨hmem, hlt⟩ := Option.filter_eq_some_iff.1 hcap
    exact absurd (of_decide_eq_true hlt) (Nat.not_lt.2 (hwithin _ hmem))
  | symbol, node, _, s, _, .unselected _ hrule, hsymbol, hchildren => by
    obtain ⟨text, problems, heq⟩ := c.modifiers.applyAll_eq (node.report (s.select c symbol).2.1)
    rw [heq]
    refine (held_select s symbol).imp fun hselect => ?_
    refine Node.Locked.leaf (fun _ hx _ => ?_) hchildren
    -- if the symbol was `x`, the value would be selected
    have hselected := hselect (Option.some.inj (hsymbol.symm.trans hx))
    cases hrule.symm.trans hselected
  | symbol, node, _, s, _, @Resolves.selected _ _ _ _ _ _ rule children _ _ hrule h, hsymbol,
    _ => by
    let gathered := (node.report (s.select c symbol).2.1).gather rule children
    refine ((held_select s symbol).trans (h.held hvalue)).imp fun ⟨hselect, hbelow⟩ => ?_
    have hroot : gathered.symbol = some x → gathered.childRule = some value ∧
        gathered.text = value := by
      intro hx
      have hselected := hselect (Option.some.inj (hsymbol.symm.trans hx))
      obtain rfl : rule = value := Option.some.inj (hrule.symm.trans hselected)
      exact ⟨rfl, h.text_of_plain hvalue⟩
    exact Node.lockedTree_applyAll c.modifiers (fun _ hx _ => hroot hx) hbelow

end

/-! ### The tag that locks a value in -/

variable {levels : Nat} {node n : Node} {clause : Tag.Clause} {alt part : Text}

theorem finishes_levelBelow (levels : Nat) : Finishes c (levelBelow c levels) := by
  cases levels with
  | zero => exact finishes_exhaust
  | succ levels => exact derives_expand levels

omit [Scalar α] in
theorem runActions_of_single {go : Expander α} (hactions : clause.actions = [.push x alt])
    (hsingle : Alternatives.split c.settings.separator alt = [part]) {depth : Nat} {a : Outcome α}
    (ha : go (Node.nested depth part) (s.enter clause.symbol) = a) {before : Activation α}
    {undos : List Text} (hrun : runActions c go depth clause s = (before, undos))
    (hhalt : before.halt = none) :
    a.halt = none ∧ before.state = a.state.push .before x [a.node.text] ∧ undos = [x] := by
  have halternatives : alternatives c depth alt = [Node.nested depth part] := by
    rw [alternatives, hsingle, List.map_singleton]
  have hrun' : activateEach c go depth [.push x alt] (s.enter clause.symbol) = (before, undos) := by
    rw [← hactions]
    exact hrun
  cases hdone : a.halt with
  | some halt =>
    have heach : expandEach go (alternatives c depth alt) (s.enter clause.symbol) =
        ([], a.state, some halt) := by
      rw [halternatives, expandEach_cons_of_halt (ha ▸ hdone), ha]
    have hpush : (activate c go .before depth (.push x alt) (s.enter clause.symbol)).halt =
        some halt := by
      rw [activate_push_of_halt (congrArg (·.2.2) heach)]
    rw [activateEach_cons_of_halt hpush] at hrun'
    obtain ⟨rfl, -⟩ := Prod.mk.inj hrun'
    cases hhalt
  | none =>
    have heach : expandEach go (alternatives c depth alt) (s.enter clause.symbol) =
        ([a.node], a.state, none) := by
      rw [halternatives, expandEach_cons_of_done (ha ▸ hdone), ha]
      rfl
    have hpush : activate c go .before depth (.push x alt) (s.enter clause.symbol) =
        { problems := [a.node].flatMap (·.problems)
          state := a.state.push .before x [a.node.text] } := by
      rw [activate_push_of_done (congrArg (·.2.2) heach), heach]
      rfl
    rw [activateEach_cons_of_done (by rw [hpush]) rfl, hpush] at hrun'
    obtain ⟨rfl, rfl⟩ := Prod.mk.inj hrun'
    exact ⟨rfl, rfl, rfl⟩

theorem expandTag_of_single (hread : Tag.read node.raw = .clause clause)
    (hactions : clause.actions = [.push x alt])
    (hsingle : Alternatives.split c.settings.separator alt = [part]) {a o : Outcome α}
    (ha : expand c levels (Node.nested node.depth part) (s.enter clause.symbol) = a)
    (ho : expandTag c (expand c levels) (levelBelow c levels) node s = o) (hdone : o.halt = none) :
    a.halt = none ∧ ∃ problems n u,
      Resolves c clause.symbol ((enterClause node clause).report problems)
        (a.state.push .before x [a.node.text]) n u ∧
      o.node = n.report (u.pop .undo x).1 ∧ o.state = (u.pop .undo x).2 := by
  rcases hrun : runActions c (expand c levels) node.depth clause s with ⟨before, undos⟩
  cases hhalt : before.halt with
  | some halt =>
    rw [expandTag_of_halt hread hrun hhalt] at ho
    subst ho
    cases hdone
  | none =>
    rw [expandTag_of_done hread hrun hhalt] at ho
    obtain ⟨hadone, hstate, rfl⟩ := runActions_of_single hactions hsingle ha hrun hhalt
    subst ho
    rw [← hstate]
    have hresolves := resolves_resolve (finishes_levelBelow levels) hdone
    exact ⟨hadone, before.problems, _, _, hresolves,
      congrArg (Node.report _) (List.append_nil _), rfl⟩

/-- **A locked-in value stays locked in.**  A tag pushes one alternative over `x`, and the text that
this is expanded to is empty or plain. If the expansion of the tag does not halt, and pushes and
pops `x` only these two times, at the beginning and at the end of the tag, then every tag of `x` in
the tree within the cap has that text for its rule, and for its own text unless it has modifiers.
The state may be any in a run, with any values to be drawn; `x` may be declared as anything. -/
theorem locked_of_in (hfresh : node.Fresh) (hkind : node.kind = .tag)
    (hread : Tag.read node.raw = .clause clause)
    (hactions : clause.actions = [.push x alt])
    (hsingle : Alternatives.split c.settings.separator alt = [part])
    (hexpanded : (expand c levels (Node.nested node.depth part) s).node.text = value)
    (hvalue : value.Plain)
    {o : Outcome α} (ho : expand c levels node s = o) (hdone : o.halt = none)
    (hquiet : o.state.touches x = s.touches x + 2) (hn : n.In o.node) (htag : n.kind = .tag)
    (hsymbol : n.symbol = some x) (hcap : ∀ cap ∈ c.settings.maxDepth, n.depth ≤ cap) :
    n.childRule = some value ∧ (n.modifiers = [] → n.text = value) := by
  suffices hlocked : o.node.LockedTree c.settings.maxDepth x value from
    hlocked n hn htag hsymbol hcap
  let a := expand c levels (Node.nested node.depth part) (s.enter clause.symbol)
  have htext : a.node.text = value := by
    -- that the tag was met makes no difference to the alternative
    have hagree : Agree SameStore (expand c levels (Node.nested node.depth part) s) a :=
      (sameStore_simulation c).expand levels _ s (s.enter clause.symbol) ⟨rfl, rfl⟩
    rw [← hagree.node]
    exact hexpanded
  rw [expand_eq, expandWith_of_tag hfresh.expanded hkind] at ho
  let begun : Node := { node with expanded := true }
  have hbegun : Tag.read begun.raw = .clause clause := hread
  obtain ⟨hadone, problems, m, u, hresolves, hnode, hstate⟩ :=
    expandTag_of_single hbegun hactions hsingle (show _ = a from rfl) ho hdone
  rw [hstate] at hquiet
  rw [hnode]
  let pushed := a.state.push .before x [a.node.text]
  have halternative : s.touches x ≤ a.state.touches x := by
    have hderives := derives_expand levels _ (s.enter clause.symbol) rfl hadone
    have hheld : Held x value _ s a.state := (held_enter s clause.symbol).trans
      (hderives.held hvalue (Node.fresh_nested node.depth part))
    exact hheld.le
  have hpush : pushed.touches x = a.state.touches x + 1 := a.state.touches_push _ _ _
  have hpop : (u.pop .undo x).2.touches x = u.touches x + 1 := u.touches_pop _ _
  have htop : (pushed.symbols.stack x).head? = some [value] := by
    have hstack : pushed.symbols.stack x = [a.node.text] :: a.state.symbols.stack x :=
      (Symbols.stack_push a.state.symbols x [a.node.text] x).trans (if_pos rfl)
    rw [hstack, htext, List.head?_cons]
  -- nothing but this push and this pop is counted, so the rule is expanded with the value on top
  have hheld : Held x value (m.LockedTree c.settings.maxDepth x value) pushed u :=
    hresolves.held hvalue rfl hfresh.children
  have hle := hheld.le
  exact (hheld.holds (by omega) htop).report _

/-- The symbol is declared, and rules are pushed over it already. In the rule of the tag it is met
with a modifier and, at the cap and while another symbol is pushed, without one. -/
theorem locked_of_in_deepest :
    let hero := "hero".toList
    let rules := ofRules [("hero", ["nobody"]), ("name", ["Ada", "Bob"]), ("mood", ["calm"]),
      ("story", ["#hero.up#: #[mood:sad]scene#"]), ("scene", ["#mood# #hero#"])]
    let g := { rules with source := .fixed 0.5, settings := { maxDepth := some 3 } }.register
      [("up".toList, fun text _ => '!' :: text)]
    let s := g.state.push .bare hero [['x'], ['y'], ['z']]
    let node : Node := { raw := "[hero:#name#]story".toList, kind := .tag, depth := 1, index := 0 }
    let o := expand g.context g.settings.levels node s
    o.halt = none ∧ o.state.touches hero = s.touches hero + 2 ∧
      o.node.text = "!Bob: sad Bob".toList ∧
      ∃ n : Node, n.In o.node ∧ n.kind = .tag ∧ n.symbol = some hero ∧ n.depth = 3 ∧
        n.childRule = some "Bob".toList ∧ n.text = "Bob".toList := by
  intro hero rules g s node o
  let clause : Tag.Clause :=
    { symbol := "story".toList, modifiers := []
      preactions := [⟨.action, "hero:#name#".toList⟩], problems := [] }
  have hfresh : node.Fresh := ⟨rfl, rfl, rfl, rfl, rfl, rfl, rfl⟩
  have hread : Tag.read node.raw = .clause clause := by decide +kernel
  have hactions : clause.actions = [.push hero "#name#".toList] := by decide +kernel
  have hsingle : Alternatives.split g.context.settings.separator "#name#".toList =
      ["#name#".toList] := by decide +kernel
  have hexpanded : (expand g.context g.settings.levels
      (Node.nested node.depth "#name#".toList) s).node.text = "Bob".toList := by decide +kernel
  have hvalue : Text.Plain "Bob".toList := .inr (by decide +kernel)
  have hdone : o.halt = none := by decide +kernel
  have hquiet : o.state.touches hero = s.touches hero + 2 := by decide +kernel
  obtain ⟨scene, hscene, n, hn, htag, hsymbol, hdepth, hmodifiers⟩ :
      ∃ scene ∈ o.node.children, ∃ n ∈ scene.children,
        n.kind = .tag ∧ n.symbol = some hero ∧ n.depth = 3 ∧ n.modifiers = [] := by
    decide +kernel
  have hbelow : n.In o.node := .child hscene (.child hn (.root n))
  have hcap : ∀ cap ∈ g.context.settings.maxDepth, n.depth ≤ cap := by
    rintro cap ⟨⟩
    exact hdepth.le
  obtain ⟨hrule, htext⟩ := locked_of_in hfresh rfl hread hactions hsingle hexpanded hvalue
    (show _ = o from rfl) hdone hquiet hbelow htag hsymbol hcap
  exact ⟨hdone, hquiet, by decide +kernel, n, hbelow, htag, hsymbol, hdepth, hrule,
    htext hmodifiers⟩

end Expansion

end TextGrammar
