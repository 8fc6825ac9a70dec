import TextGrammar.Expansion.State
import TextGrammar.Markup.Section

/-!
# Expansion

An `Expander` takes a node and a state and returns both as they are afterwards, also when it had
to halt. Each function here says what one kind of node does, given the expanders for the nodes it
contains: `nested` for those whose text is part of its own text, and `selected` for the sections
of a rule that was selected. So nothing here calls itself but along a list.

* A rule is expanded section by section; its text is the text of the sections in order, and its
  problems are those of its scan followed by those of the sections (`expandRule`).
* A push expands its alternatives and then pushes their texts; an evaluation expands its rule and
  drops the text (`activate`).
* A tag runs its actions in order, then expands a rule selected for its symbol, then takes back
  what its actions have pushed, in the same order. It does the last also after a halt (`expandTag`).

A node contains nodes for two reasons. The text of some is part of its own text, so there are not
more of these one inside the other than the text has characters; each may take two steps, one for
an action and one for the rule in it. Others come from a rule that was selected, whose text may be
of any length; these are counted in levels. Under a cap `m` on the depth every selection is made at
depth `m` or above, and each of them leads at least one step down, so `m + 1` levels are enough.
Without a cap an expansion is given as many levels as a depth of 64 bits can count.

`Expansion.expand` expands a node all the way. `Expansion.expandShallow` does not expand the
sections of the rule that the node is expanded to, but it runs the actions of a tag.
-/

namespace TextGrammar

namespace Expansion

variable {α : Type}

/-- A node and a state after an expansion, and why it halted if it did. -/
structure Outcome (α : Type) where
  node : Node
  state : State α
  halt : Option Halt := none

/-- Something that expands nodes. -/
abbrev Expander (α : Type) := Node → State α → Outcome α

/-- The expander that leaves every node as it is. -/
def leave : Expander α := fun node s => ⟨node, s, none⟩

/-- The expander that halts at once. -/
def exhaust : Expander α := fun node s => ⟨node, s, some .exhausted⟩

/-- Expand nodes in order up to the first that halts. The nodes before it are returned. -/
def expandEach (go : Expander α) : List Node → State α → List Node × State α × Option Halt
  | [], s => ([], s, none)
  | node :: nodes, s =>
    let first := go node s
    match first.halt with
    | some halt => ([], first.state, some halt)
    | none =>
      let (rest, s, halt) := expandEach go nodes first.state
      (first.node :: rest, s, halt)

/-- Expand a node to the sections of a rule. -/
def expandRule (go : Expander α) (node : Node) (rule : Text) (s : State α) : Outcome α :=
  let scanned := scan rule
  let (children, s, halt) := expandEach go (Node.ofSections (node.depth + 1) scanned.sections) s
  { node :=
      { node with
        childRule := some rule
        children
        text := children.flatMap (·.text)
        problems := node.problems ++ (scanned.problems ++ children.flatMap (·.problems)) }
    state := s
    halt }

/-! ### Actions -/

/-- What is left of an action that was run. -/
structure Activation (α : Type) where
  problems : List Diagnostic
  state : State α
  halt : Option Halt := none

/-- Run an action of a node at the given depth. -/
def activate (c : Context α) (nested : Expander α) (scope : Scope) (depth : Nat) (action : Action)
    (s : State α) : Activation α :=
  match action with
  | .push target rules =>
    let nodes := (Alternatives.split c.settings.separator rules).map (Node.nested depth)
    let (done, s, halt) := expandEach nested nodes s
    let problems := done.flatMap (·.problems)
    match halt with
    | some halt => ⟨problems, s, some halt⟩
    | none => ⟨problems, s.push scope target (done.map (·.text)), none⟩
  | .pop target =>
    let (problems, s) := s.pop scope target
    ⟨problems, s, none⟩
  | .evaluate rule =>
    let (done, s, halt) := expandEach nested [Node.nested depth rule] s
    ⟨done.flatMap (·.problems), s, halt⟩

/-- Run the actions of a tag up to the first that halts. The result lists the symbols to pop in
order to undo what they did. -/
def activateEach (c : Context α) (nested : Expander α) (depth : Nat) :
    List Action → State α → Activation α × List Text
  | [], s => (⟨[], s, none⟩, [])
  | action :: actions, s =>
    let first := activate c nested .before depth action s
    match first.halt with
    | some halt => (⟨first.problems, first.state, some halt⟩, [])
    | none =>
      let (rest, undos) := activateEach c nested depth actions first.state
      ({ rest with problems := first.problems ++ rest.problems },
        (action.undo?.map (·.target)).toList ++ undos)

/-! ### Tags -/

variable [Scalar α]

/-- Expand a tag to a rule of its symbol and apply its modifiers. Below the cap nothing is
selected, and a placeholder is the text. -/
def resolve (c : Context α) (selected : Expander α) (symbol : Text) (node : Node) (s : State α) :
    Outcome α :=
  match c.settings.maxDepth.filter (· < node.depth) with
  | some cap =>
    ⟨{ node with text := Text.placeholder symbol }.report [.depthExceeded symbol cap], s, none⟩
  | none =>
    let (rule, problems, s) := s.select c symbol
    let node := node.report problems
    let main : Outcome α := match rule with
      | some rule => expandRule selected node rule s
      | none => ⟨node, s, none⟩
    match main.halt with
    | some halt => ⟨main.node, main.state, some halt⟩
    | none => ⟨c.modifiers.applyAll main.node, main.state, none⟩

/-- Expand a tag. -/
def expandTag (c : Context α) (nested selected : Expander α) (node : Node) (s : State α) :
    Outcome α :=
  match Tag.read node.raw with
  | .ambiguous => ⟨node, s, some (.ambiguousTag node.raw)⟩
  | .silent => ⟨node, s, none⟩
  | .clause clause =>
    let node :=
      { node with symbol := some clause.symbol, modifiers := clause.modifiers }.report
        clause.problems
    let actions := clause.preactions.map fun p => Action.read p.raw
    let (before, undos) := activateEach c nested node.depth actions (s.enter clause.symbol)
    let node := node.report before.problems
    let main : Outcome α := match before.halt with
      | some halt => ⟨node, before.state, some halt⟩
      | none => resolve c selected clause.symbol node before.state
    let (problems, s) := main.state.popAll .undo undos
    ⟨main.node.report problems, s, main.halt⟩

/-! ### Nodes -/

/-- Expand a node that is not expanded yet. The sections of its own text, if it is a rule, go to
`sections`. -/
def expandWith (c : Context α) (nested sections selected : Expander α) : Expander α :=
  fun node s =>
    if node.expanded then ⟨node, s, none⟩
    else
      let node := { node with expanded := true }
      match node.kind with
      | .unparsed => expandRule sections node node.raw s
      | .plain => ⟨{ node with text := node.raw }, s, none⟩
      | .tag => expandTag c nested selected node s
      | .action =>
        let done := activate c nested .bare node.depth (Action.read node.raw) s
        ⟨node.report done.problems, done.state, done.halt⟩

/-! ### All the way down -/

/-- How many steps the parts of a text may take, one inside the other. -/
def stepsWithin (raw : Text) : Nat := 2 * raw.length + 3

/-- Expand nodes whose texts are parts of one text; `steps` bounds how many are inside each
other. -/
def expandWithin (c : Context α) (selected : Expander α) : (steps : Nat) → Expander α
  | 0 => exhaust
  | steps + 1 =>
    let nested := expandWithin c selected steps
    expandWith c nested nested selected

/-- Expand a node; `levels` bounds how many selections are inside each other. -/
def expand (c : Context α) : (levels : Nat) → Expander α
  | 0 => fun node s => expandWithin c exhaust (stepsWithin node.raw) node s
  | levels + 1 => fun node s => expandWithin c (expand c levels) (stepsWithin node.raw) node s

/-- Expand a node, but not the sections of the rule that it is expanded to. -/
def expandShallow (c : Context α) : (levels : Nat) → Expander α
  | 0 => fun node s =>
    expandWith c (expandWithin c exhaust (stepsWithin node.raw)) leave leave node s
  | levels + 1 => fun node s =>
    expandWith c (expandWithin c (expand c levels) (stepsWithin node.raw)) leave leave node s

end Expansion

/-- The levels that an expansion under these settings is given. -/
def Settings.levels (s : Settings) : Nat :=
  match s.maxDepth with
  | some cap => cap + 1
  | none => UInt64.size

end TextGrammar
