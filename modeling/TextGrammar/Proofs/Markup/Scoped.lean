import TextGrammar.Proofs.Markup.Rendered

/-!
# Pushes in a tag and pushes by themselves

The same pushes can stand in a tag before its clause, `#[x:a][y:b]story#`, or by themselves before
the tag, with as many pops behind it, `[x:a][y:b]#story#[x:POP][y:POP]`. `Push` is a push whose text
means the same in both places: its target has no markup in it and no colon, and its rules close
every bracket they open. Nothing is asked of tags in the rules, because inside brackets a `#` is
text.

From this it follows how both forms are taken apart (`Push.read_within`, `Push.scan_around`), and
that nothing is wrong with either.
-/

namespace TextGrammar

/-! ### Actions before a clause -/

namespace Tag

variable {actions : List Section} {clause : Text}

/-- The text of a tag is closed, however many closed actions stand before its clause. -/
theorem closed_actions (hkind : ∀ x ∈ actions, x.kind = .action)
    (hclosed : ∀ x ∈ actions, x.Closed) (hclause : clause.Neutral) :
    Section.Closed ⟨.tag, actions.flatMap Section.source ++ clause⟩ := by
  let main : Section := ⟨.plain, clause⟩
  have hmain : ∀ x ∈ [main], x.Closed := List.forall_mem_singleton.2 (hclause.closed .plain)
  have htag : Section.Closed ⟨.tag, (actions ++ [main]).flatMap Section.source⟩ :=
    Section.closed_tag (List.forall_mem_append.2 ⟨hclosed, hmain⟩)
      (List.forall_mem_append.2 ⟨fun x hx => .inr (hkind x hx),
        List.forall_mem_singleton.2 (.inl rfl)⟩)
  rwa [List.flatMap_append, List.flatMap_singleton] at htag

/-- **The actions in a tag run before its clause.** -/
theorem read_actions (hkind : ∀ x ∈ actions, x.kind = .action)
    (hclosed : ∀ x ∈ actions, x.Closed) (hraw : ∀ x ∈ actions, x.raw ≠ [])
    (hclause : clause.Neutral) (hne : clause ≠ []) :
    read (actions.flatMap Section.source ++ clause) =
      .clause
        { symbol := (Text.pieces '.' clause).headD []
          modifiers := (Text.pieces '.' clause).tail
          preactions := actions
          problems := [] } := by
  have hscan : scan (actions.flatMap Section.source ++ clause) =
      ⟨actions ++ [⟨.plain, clause⟩], []⟩ := by
    have hread := scan_flatMap_source_append hclosed (fun x hx => .inr (hkind x hx)) hraw
      (hclause.closed .plain)
    rwa [Section.ofPlain, if_neg (by simpa using hne)] at hread
  have hplain : actions.filter (·.kind == .plain) = [] :=
    List.filter_eq_nil_iff.2 fun x hx => by simp [hkind x hx]
  have hother : actions.filter (·.kind != .plain) = actions :=
    List.filter_eq_self.2 fun x hx => by simp [hkind x hx]
  simp [read, hscan, hplain, hother]

theorem scan_actions (hkind : ∀ x ∈ actions, x.kind = .action)
    (hclosed : ∀ x ∈ actions, x.Closed) (hclause : clause.Neutral) (hne : clause ≠ []) :
    scan (Section.source ⟨.tag, actions.flatMap Section.source ++ clause⟩) =
      ⟨[⟨.tag, actions.flatMap Section.source ++ clause⟩], []⟩ :=
  scan_source_tag (closed_actions hkind hclosed hclause)
    (List.append_ne_nil_of_right_ne_nil _ hne)

end Tag

/-! ### Pushes -/

/-- A push that means the same in a tag and by itself. -/
structure Push where
  target : Text
  rules : Text
  target_ordinary : target.Ordinary
  colon_not_mem : ':' ∉ target
  rules_ne : rules ≠ Action.popWord
  rules_balanced : Nesting.Balanced rules

namespace Push

/-- The push as an action. -/
def action (p : Push) : Section := ⟨.action, p.target ++ ':' :: p.rules⟩

/-- The pop that undoes it. -/
def undo (p : Push) : Section := ⟨.action, p.target ++ ':' :: Action.popWord⟩

/-- The pushes in a tag, before its clause. -/
def within (pushes : List Push) (clause : Text) : Text :=
  Section.source ⟨.tag, pushes.flatMap (·.action.source) ++ clause⟩

/-- The pushes by themselves before the tag, and the pops behind it. -/
def around (pushes : List Push) (clause : Text) : Text :=
  pushes.flatMap (·.action.source) ++ Section.source ⟨.tag, clause⟩ ++
    pushes.flatMap (·.undo.source)

theorem read_action (p : Push) : Action.read p.action.raw = .push p.target p.rules := by
  simp only [action, Action.read, Text.cut?_append_cons p.colon_not_mem, if_neg p.rules_ne]

theorem read_undo (p : Push) : Action.read p.undo.raw = .pop p.target := by
  simp only [undo, Action.read, Text.cut?_append_cons p.colon_not_mem, if_true]

/-- Behind a target without markup balanced rules make a closed action. -/
theorem closed_of_balanced {target rules : Text} (htarget : target.Ordinary)
    (hrules : Nesting.Balanced rules) : Section.Closed ⟨.action, target ++ ':' :: rules⟩ := by
  let place : Nesting := { depth := 1 }
  have hcolon : Text.Neutral [':'] := Text.neutral_singleton (by decide)
  obtain ⟨hund, hafter⟩ := (htarget.neutral.append hcolon) place rfl
  obtain ⟨hundRules, hafterRules⟩ := Section.closed_action_iff.2 hrules
  have hraw : target ++ ':' :: rules = target ++ [':'] ++ rules := by
    rw [List.append_assoc, List.singleton_append]
  refine ⟨?_, ?_⟩
  · change place.Undelimited _
    rw [hraw, Nesting.undelimited_append, hafter]
    exact ⟨hund, hundRules⟩
  · change place.after _ = place
    rw [hraw, Nesting.after_append, hafter]
    exact hafterRules

theorem closed_action (p : Push) : p.action.Closed :=
  closed_of_balanced p.target_ordinary p.rules_balanced

theorem closed_undo (p : Push) : p.undo.Closed :=
  closed_of_balanced p.target_ordinary (Text.Ordinary.neutral (by decide)).balanced

variable {pushes : List Push} {clause : Text}

theorem closed_clause (hclause : clause.Ordinary) : Section.Closed ⟨.tag, clause⟩ :=
  hclause.neutral.closed .tag

/-- What the tag with the pushes says. -/
def clauseOf (pushes : List Push) (clause : Text) : Tag.Clause where
  symbol := (Text.pieces '.' clause).headD []
  modifiers := (Text.pieces '.' clause).tail
  preactions := pushes.map action
  problems := []

theorem clauseOf_of_not_mem (pushes : List Push) (h : '.' ∉ clause) :
    (clauseOf pushes clause).symbol = clause ∧ (clauseOf pushes clause).modifiers = [] := by
  simp only [clauseOf, Text.pieces_of_not_mem h, List.headD_cons, List.tail_cons, and_self]

theorem forall_mem_actions {P : Section → Prop} (h : ∀ p : Push, P p.action) :
    ∀ x ∈ pushes.map action, P x :=
  List.forall_mem_map.2 fun p _ => h p

/-- **The pushes in a tag run before its clause.** -/
theorem read_within (pushes : List Push) (hclause : clause.Ordinary) (hne : clause ≠ []) :
    Tag.read (pushes.flatMap (·.action.source) ++ clause) = .clause (clauseOf pushes clause) := by
  have hread : Tag.read ((pushes.map action).flatMap Section.source ++ clause) =
      .clause (clauseOf pushes clause) :=
    Tag.read_actions (forall_mem_actions fun _ => rfl) (forall_mem_actions closed_action)
      (forall_mem_actions fun p => by simp [action]) hclause.neutral hne
  rwa [List.flatMap_map] at hread

theorem scan_within (pushes : List Push) (hclause : clause.Ordinary) (hne : clause ≠ []) :
    scan (within pushes clause) =
      ⟨[⟨.tag, pushes.flatMap (·.action.source) ++ clause⟩], []⟩ := by
  have hkind : ∀ x ∈ pushes.map action, x.kind = .action := forall_mem_actions fun _ => rfl
  have hscan := Tag.scan_actions hkind (forall_mem_actions closed_action) hclause.neutral hne
  rwa [List.flatMap_map] at hscan

/-- **By themselves the pushes stand before the tag and the pops behind it.** -/
theorem scan_around (pushes : List Push) (hclause : clause.Ordinary) (hne : clause ≠ []) :
    scan (around pushes clause) =
      ⟨pushes.map action ++ [⟨.tag, clause⟩] ++ pushes.map undo, []⟩ := by
  let sections := pushes.map action ++ [⟨.tag, clause⟩] ++ pushes.map undo
  have hsections : ∀ {P : Section → Prop}, (∀ p ∈ pushes, P p.action) → P ⟨.tag, clause⟩ →
      (∀ p ∈ pushes, P p.undo) → ∀ x ∈ sections, P x := by
    intro P haction htag hundo x hx
    simp only [sections, List.mem_append, List.mem_map, List.mem_singleton] at hx
    rcases hx with (⟨p, hp, rfl⟩ | rfl) | ⟨p, hp, rfl⟩
    · exact haction p hp
    · exact htag
    · exact hundo p hp
  have hscan : scan (sections.flatMap Section.source ++ []) =
      ⟨sections ++ Section.ofPlain [], []⟩ :=
    scan_flatMap_source_append
      (hsections (fun p _ => p.closed_action) (closed_clause hclause) fun p _ => p.closed_undo)
      (hsections (fun _ _ => .inr rfl) (.inl rfl) fun _ _ => .inr rfl)
      (hsections (fun p _ => by simp [action]) hne fun p _ => by simp [undo]) ⟨trivial, rfl⟩
  simpa [Section.ofPlain, around, sections, List.flatMap_map] using hscan

end Push

end TextGrammar
