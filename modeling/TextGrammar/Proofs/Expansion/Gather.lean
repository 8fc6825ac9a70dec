import TextGrammar.Proofs.Expansion.Steps
import TextGrammar.Proofs.Markup.Append

/-!
# What sections give

`gather` is what nodes give one after the other: their texts and their problems in order, the state
they leave and the halt, if one of them halts. It is all that the node above them takes from them.
The place that a node has among its siblings makes no difference to it (`expand_moved`), so what a
list of sections gives does not depend on the rule they stand in (`gather_ofSections`), and lists of
sections can be put one after the other.
-/

namespace TextGrammar

/-- The node in another place among its siblings. -/
def Node.moved (n : Node) (index : Nat) : Node := { n with index }

theorem Registry.applyAll_moved (r : Registry) (n : Node) (index : Nat) :
    r.applyAll (n.moved index) = (r.applyAll n).moved index := by
  have hfold : ∀ (references : List Text) (n : Node),
      references.foldl r.apply (n.moved index) = (references.foldl r.apply n).moved index := by
    intro references
    induction references with
    | nil => exact fun n => rfl
    | cons reference references ih =>
      intro n
      rw [List.foldl_cons, List.foldl_cons, ← ih]
      simp only [apply]
      cases r.find? (ModifierSpec.read reference).name <;> rfl
  exact hfold n.modifiers n

namespace Expansion

variable {α : Type} {go : Expander α} {nodes : List Node} {node : Node} {s : State α}

/-! ### Gathering -/

/-- What nodes give one after the other. -/
structure Yield (α : Type) where
  text : Text
  problems : List Diagnostic
  state : State α
  halt : Option Halt

/-- What is left of nodes that are expanded in order: all that the node above them keeps but the
nodes themselves. -/
def gather (go : Expander α) (nodes : List Node) (s : State α) : Yield α where
  text := (expandEach go nodes s).1.flatMap (·.text)
  problems := (expandEach go nodes s).1.flatMap (·.problems)
  state := (expandEach go nodes s).2.1
  halt := (expandEach go nodes s).2.2

theorem gather_cons_of_halt {halt : Halt} (h : (go node s).halt = some halt) :
    gather go (node :: nodes) s = ⟨[], [], (go node s).state, some halt⟩ := by
  simp only [gather, expandEach_cons_of_halt h, List.flatMap_nil]

theorem gather_cons_of_done (h : (go node s).halt = none) :
    gather go (node :: nodes) s =
      ⟨(go node s).node.text ++ (gather go nodes (go node s).state).text,
        (go node s).node.problems ++ (gather go nodes (go node s).state).problems,
        (gather go nodes (go node s).state).state, (gather go nodes (go node s).state).halt⟩ := by
  simp only [gather, expandEach_cons_of_done h, List.flatMap_cons]

theorem gather_append_of_halt {halt : Halt} (h : (gather go nodes s).halt = some halt)
    (more : List Node) : gather go (nodes ++ more) s = gather go nodes s := by
  induction nodes generalizing s with
  | nil => cases h
  | cons node nodes ih =>
    rw [List.cons_append]
    cases hs : (go node s).halt with
    | some halt' => rw [gather_cons_of_halt hs, gather_cons_of_halt hs]
    | none =>
      rw [gather_cons_of_done hs] at h
      rw [gather_cons_of_done hs, gather_cons_of_done hs, ih h]

theorem gather_append_of_done (h : (gather go nodes s).halt = none) (more : List Node) :
    gather go (nodes ++ more) s =
      ⟨(gather go nodes s).text ++ (gather go more (gather go nodes s).state).text,
        (gather go nodes s).problems ++ (gather go more (gather go nodes s).state).problems,
        (gather go more (gather go nodes s).state).state,
        (gather go more (gather go nodes s).state).halt⟩ := by
  induction nodes generalizing s with
  | nil => rfl
  | cons node nodes ih =>
    rw [List.cons_append]
    cases hs : (go node s).halt with
    | some halt' =>
      rw [gather_cons_of_halt hs] at h
      cases h
    | none =>
      rw [gather_cons_of_done hs] at h
      rw [gather_cons_of_done hs, gather_cons_of_done hs, ih h]
      simp only [List.append_assoc]

/-- What sections at this depth give. -/
def gatherSections (go : Expander α) (depth : Nat) (sections : List Section) (s : State α) :
    Yield α :=
  gather go (sections.map fun x => { raw := x.raw, kind := x.kind, depth, index := 0 }) s

theorem gatherSections_cons_of_halt {depth : Nat} {x : Section} {o : Outcome α} {halt : Halt}
    (ho : go { raw := x.raw, kind := x.kind, depth, index := 0 } s = o) (h : o.halt = some halt)
    (xs : List Section) :
    gatherSections go depth (x :: xs) s = ⟨[], [], o.state, some halt⟩ := by
  subst ho
  exact gather_cons_of_halt h

theorem gatherSections_cons_of_done {depth : Nat} {x : Section} {o : Outcome α}
    (ho : go { raw := x.raw, kind := x.kind, depth, index := 0 } s = o) (h : o.halt = none)
    (xs : List Section) :
    gatherSections go depth (x :: xs) s =
      ⟨o.node.text ++ (gatherSections go depth xs o.state).text,
        o.node.problems ++ (gatherSections go depth xs o.state).problems,
        (gatherSections go depth xs o.state).state, (gatherSections go depth xs o.state).halt⟩ := by
  subst ho
  exact gather_cons_of_done h

theorem gatherSections_append_of_halt {depth : Nat} {xs : List Section} {halt : Halt}
    (h : (gatherSections go depth xs s).halt = some halt) (ys : List Section) :
    gatherSections go depth (xs ++ ys) s = gatherSections go depth xs s := by
  unfold gatherSections
  rw [List.map_append]
  exact gather_append_of_halt h _

theorem gatherSections_append_of_done {depth : Nat} {xs : List Section} {y : Yield α}
    (hy : gatherSections go depth xs s = y) (h : y.halt = none) (ys : List Section) :
    gatherSections go depth (xs ++ ys) s =
      ⟨y.text ++ (gatherSections go depth ys y.state).text,
        y.problems ++ (gatherSections go depth ys y.state).problems,
        (gatherSections go depth ys y.state).state,
        (gatherSections go depth ys y.state).halt⟩ := by
  subst hy
  unfold gatherSections
  rw [List.map_append]
  exact gather_append_of_done h _

/-! ### Moving nodes -/

/-- The outcome with its node in another place. -/
def Outcome.moved (o : Outcome α) (index : Nat) : Outcome α := { o with node := o.node.moved index }

variable [Scalar α] {c : Context α} {nested selected : Expander α}

theorem resolve_moved (symbol : Text) (node : Node) (index : Nat) (s : State α) :
    resolve c selected symbol (node.moved index) s =
      (resolve c selected symbol node s).moved index := by
  cases hcap : c.settings.maxDepth.filter (· < node.depth) with
  | some cap =>
    have hcap' : c.settings.maxDepth.filter (· < (node.moved index).depth) = some cap := hcap
    rw [resolve_of_capped hcap, resolve_of_capped hcap']
    rfl
  | none =>
    have hcap' : c.settings.maxDepth.filter (· < (node.moved index).depth) = none := hcap
    cases hrule : (s.select c symbol).1 with
    | none =>
      rw [resolve_of_unselected hcap hrule, resolve_of_unselected hcap' hrule]
      simp only [Outcome.moved, ← Registry.applyAll_moved]
      rfl
    | some rule =>
      have hmain : expandRule selected ((node.moved index).report (s.select c symbol).2.1) rule
          (s.select c symbol).2.2 = (expandRule selected (node.report (s.select c symbol).2.1) rule
            (s.select c symbol).2.2).moved index := rfl
      cases hhalt : (expandRule selected (node.report (s.select c symbol).2.1) rule
          (s.select c symbol).2.2).halt with
      | some halt =>
        rw [resolve_of_halt hcap hrule rfl hhalt, resolve_of_halt hcap' hrule hmain hhalt]
      | none =>
        rw [resolve_of_done hcap hrule rfl hhalt, resolve_of_done hcap' hrule hmain hhalt]
        simp only [Outcome.moved, ← Registry.applyAll_moved]

theorem expandTag_moved (node : Node) (index : Nat) (s : State α) :
    expandTag c nested selected (node.moved index) s =
      (expandTag c nested selected node s).moved index := by
  have hraw : (node.moved index).raw = node.raw := rfl
  cases hread : Tag.read node.raw with
  | ambiguous =>
    rw [expandTag_of_ambiguous hread, expandTag_of_ambiguous (hraw ▸ hread)]
    rfl
  | silent =>
    rw [expandTag_of_silent hread, expandTag_of_silent (hraw ▸ hread)]
    rfl
  | clause clause =>
    rcases hrun : runActions c nested node.depth clause s with ⟨before, undos⟩
    have hrun' : runActions c nested (node.moved index).depth clause s = (before, undos) := hrun
    cases hb : before.halt with
    | some halt =>
      rw [expandTag_of_halt hread hrun hb, expandTag_of_halt (hraw ▸ hread) hrun' hb]
      rfl
    | none =>
      rw [expandTag_of_done hread hrun hb, expandTag_of_done (hraw ▸ hread) hrun' hb]
      exact congrArg (Outcome.settle · undos) (resolve_moved clause.symbol
        ((enterClause node clause).report before.problems) index before.state)

/-- The place among its siblings makes no difference to what a node gives. -/
theorem expandWith_moved {sections : Expander α} (node : Node) (index : Nat) (s : State α) :
    expandWith c nested sections selected (node.moved index) s =
      (expandWith c nested sections selected node s).moved index := by
  cases hexp : node.expanded with
  | true =>
    have hexp' : (node.moved index).expanded = true := hexp
    rw [expandWith_of_expanded hexp, expandWith_of_expanded hexp']
    rfl
  | false =>
    have hexp' : (node.moved index).expanded = false := hexp
    have hkind' : (node.moved index).kind = node.kind := rfl
    cases hkind : node.kind with
    | unparsed =>
      rw [expandWith_of_unparsed hexp hkind, expandWith_of_unparsed hexp' (hkind'.trans hkind)]
      rfl
    | plain =>
      rw [expandWith_of_plain hexp hkind, expandWith_of_plain hexp' (hkind'.trans hkind)]
      rfl
    | tag =>
      rw [expandWith_of_tag hexp hkind, expandWith_of_tag hexp' (hkind'.trans hkind)]
      exact expandTag_moved { node with expanded := true } index s
    | action =>
      rw [expandWith_of_action hexp hkind rfl,
        expandWith_of_action hexp' (hkind'.trans hkind) rfl]
      rfl

theorem expand_moved (levels : Nat) (node : Node) (index : Nat) (s : State α) :
    expand c levels (node.moved index) s = (expand c levels node s).moved index := by
  rw [expand_eq, expand_eq, expandWith_moved]

/-! ### Sections -/

theorem gather_ofSections (levels depth : Nat) (sections : List Section) (s : State α) :
    gather (expand c levels) (Node.ofSections depth sections) s =
      gatherSections (expand c levels) depth sections s := by
  have hmapIdx : ∀ (start : Nat) (s : State α),
      gather (expand c levels) (sections.mapIdx fun index x =>
        { raw := x.raw, kind := x.kind, depth, index := start + index }) s =
      gatherSections (expand c levels) depth sections s := by
    induction sections with
    | nil => exact fun _ _ => rfl
    | cons x sections ih =>
      intro start s
      let n : Node := { raw := x.raw, kind := x.kind, depth, index := 0 }
      have hmoved : expand c levels { n with index := start + 0 } s =
          (expand c levels n s).moved start := expand_moved levels n start s
      have hrest := ih (start + 1) (expand c levels n s).state
      simp only [Nat.add_assoc, Nat.add_comm 1] at hrest
      rw [List.mapIdx_cons]
      cases h : (expand c levels n s).halt with
      | some halt =>
        rw [gather_cons_of_halt ((congrArg Outcome.halt hmoved).trans h), hmoved]
        exact (gather_cons_of_halt h).symm
      | none =>
        rw [gather_cons_of_done ((congrArg Outcome.halt hmoved).trans h), hmoved]
        simp only [Outcome.moved, Node.moved, hrest]
        exact (gather_cons_of_done h).symm
  simpa [Node.ofSections] using hmapIdx 0 s

theorem expand_of_unparsed (node : Node) (hexp : node.expanded = false)
    (hkind : node.kind = .unparsed) (levels : Nat) (s : State α) {y : Yield α}
    (hy : gatherSections (expand c levels) (node.depth + 1) (scan node.raw).sections s = y) :
    (expand c levels node s).node.text = y.text ∧
      (expand c levels node s).node.problems =
        node.problems ++ ((scan node.raw).problems ++ y.problems) ∧
      (expand c levels node s).state = y.state ∧ (expand c levels node s).halt = y.halt := by
  subst hy
  rw [← gather_ofSections, expand_eq, expandWith_of_unparsed hexp hkind]
  exact ⟨rfl, rfl, rfl, rfl⟩

theorem gatherSections_ofPlain (levels depth : Nat) (t : Text) (s : State α) :
    gatherSections (expand c levels) depth (Section.ofPlain t) s = ⟨t, [], s, none⟩ := by
  unfold Section.ofPlain
  split_ifs with h
  · rw [List.isEmpty_iff.1 h]
    rfl
  · let n : Node := { raw := t, kind := .plain, depth, index := 0 }
    have hplain : expand c levels n s = ⟨{ n with expanded := true, text := t }, s, none⟩ := by
      rw [expand_eq, expandWith_of_plain rfl rfl]
    calc gatherSections (expand c levels) depth [⟨.plain, t⟩] s
      _ = gather (expand c levels) [n] s := rfl
      _ = _ := gather_cons_of_done (by rw [hplain])
      _ = ⟨t, [], s, none⟩ := by rw [hplain]; simp [gather, expandEach, n]

/-! ### Plain text at a border -/

variable {before later : List Section} {last first : Text} {levels depth : Nat}

/-- If the sections before a border halt, nothing that follows counts. -/
theorem gatherSections_border_of_halt {halt : Halt}
    (h : (gatherSections (expand c levels) depth (before ++ Section.ofPlain last) s).halt =
      some halt) :
    gatherSections (expand c levels) depth (before ++ Section.ofPlain (last ++ first) ++ later) s =
      gatherSections (expand c levels) depth (before ++ Section.ofPlain last) s := by
  cases hbefore : (gatherSections (expand c levels) depth before s).halt with
  | some halt' =>
    rw [List.append_assoc, gatherSections_append_of_halt hbefore,
      gatherSections_append_of_halt hbefore]
  | none =>
    -- plain text never halts
    rw [gatherSections_append_of_done rfl hbefore, gatherSections_ofPlain] at h
    cases h

/-- If they do not, plain text at the border may stand in one section or in two. -/
theorem gatherSections_border_of_done {y y' : Yield α}
    (hy : gatherSections (expand c levels) depth (before ++ Section.ofPlain last) s = y)
    (h : y.halt = none)
    (hy' : gatherSections (expand c levels) depth (Section.ofPlain first ++ later) y.state = y') :
    gatherSections (expand c levels) depth (before ++ Section.ofPlain (last ++ first) ++ later) s =
      ⟨y.text ++ y'.text, y.problems ++ y'.problems, y'.state, y'.halt⟩ := by
  cases hbefore : (gatherSections (expand c levels) depth before s).halt with
  | some halt =>
    rw [gatherSections_append_of_halt hbefore] at hy
    rw [← hy, hbefore] at h
    cases h
  | none =>
    rw [gatherSections_append_of_done rfl hbefore, gatherSections_ofPlain] at hy
    subst hy
    rw [gatherSections_append_of_done (gatherSections_ofPlain _ _ _ _) rfl] at hy'
    subst hy'
    rw [List.append_assoc, gatherSections_append_of_done rfl hbefore,
      gatherSections_append_of_done (gatherSections_ofPlain _ _ _ _) rfl]
    simp only [List.append_assoc, List.append_nil, List.nil_append]

theorem Simulation.gatherSections {R : State α → State α → Prop} (hR : Simulation c R)
    {s t : State α} (h : R s t) (sections : List Section) {y y' : Yield α}
    (hy : gatherSections (Expansion.expand c levels) depth sections s = y)
    (hy' : Expansion.gatherSections (Expansion.expand c levels) depth sections t = y') :
    y.text = y'.text ∧ y.problems = y'.problems ∧ y.halt = y'.halt ∧ R y.state y'.state := by
  let nodes : List Node := sections.map fun x => { raw := x.raw, kind := x.kind, depth, index := 0 }
  obtain ⟨hnodes, hhalt, hstate⟩ :=
    agree_expandEach (fun x (_ : x ∈ nodes) => hR.expand levels x) h
  subst hy hy'
  exact ⟨congrArg (·.flatMap (·.text)) hnodes, congrArg (·.flatMap (·.problems)) hnodes, hhalt,
    hstate⟩

end Expansion

end TextGrammar
