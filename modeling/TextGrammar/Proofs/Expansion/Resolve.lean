import TextGrammar.Proofs.Expansion.Expander

/-!
# What a selection adds to a tag

Once a tag is taken apart and its actions have run, the rest of its expansion looks at little of the
node: the depth, the modifiers, and the text, which is only there if the node was expanded before.
Two nodes that agree on these get the same text, and the same problems are put behind those that
they have already (`resolve_frame`).
-/

namespace TextGrammar

theorem Registry.applyAll_of_unmodified (r : Registry) {n : Node} (h : n.modifiers = []) :
    r.applyAll n = n := by
  rw [applyAll, h, List.foldl_nil]

theorem Registry.applyAll_frame (r : Registry) {n n' : Node} (htext : n.text = n'.text)
    (hmodifiers : n.modifiers = n'.modifiers) :
    ∃ found, (r.applyAll n).problems = n.problems ++ found ∧
      (r.applyAll n').problems = n'.problems ++ found ∧
      (r.applyAll n).text = (r.applyAll n').text := by
  unfold applyAll
  rw [← hmodifiers]
  generalize n.modifiers = references
  clear hmodifiers
  induction references generalizing n n' with
  | nil => exact ⟨[], (List.append_nil _).symm, (List.append_nil _).symm, htext⟩
  | cons reference references ih =>
    have hone : ∃ found, (r.apply n reference).problems = n.problems ++ found ∧
        (r.apply n' reference).problems = n'.problems ++ found ∧
        (r.apply n reference).text = (r.apply n' reference).text := by
      simp only [apply]
      cases r.find? (ModifierSpec.read reference).name with
      | some f =>
        exact ⟨[], (List.append_nil _).symm, (List.append_nil _).symm, by simp only [htext]⟩
      | none => exact ⟨_, rfl, rfl, by simp only [Node.report, htext]⟩
    obtain ⟨first, hfirst, hfirst', htext⟩ := hone
    obtain ⟨rest, hrest, hrest', htexts⟩ := ih htext
    refine ⟨first ++ rest, ?_, ?_, htexts⟩
    · rw [List.foldl_cons, hrest, hfirst, List.append_assoc]
    · rw [List.foldl_cons, hrest', hfirst', List.append_assoc]

namespace Expansion

variable {α : Type} [Scalar α] (c : Context α) (selected : Expander α) {node node' : Node}

/-- **Nodes with the same depth, text and modifiers resolve alike**, and keep the problems that they
have. -/
theorem resolve_frame (hdepth : node.depth = node'.depth) (htext : node.text = node'.text)
    (hmodifiers : node.modifiers = node'.modifiers) (symbol : Text) (s : State α) :
    ∃ found, (resolve c selected symbol node s).node.problems = node.problems ++ found ∧
      (resolve c selected symbol node' s).node.problems = node'.problems ++ found ∧
      (resolve c selected symbol node s).node.text = (resolve c selected symbol node' s).node.text ∧
      (resolve c selected symbol node s).state = (resolve c selected symbol node' s).state ∧
      (resolve c selected symbol node s).halt = (resolve c selected symbol node' s).halt := by
  cases hcap : c.settings.maxDepth.filter (· < node.depth) with
  | some cap =>
    have hcap' : c.settings.maxDepth.filter (· < node'.depth) = some cap := hdepth ▸ hcap
    rw [resolve_of_capped hcap, resolve_of_capped hcap']
    exact ⟨_, rfl, rfl, rfl, rfl, rfl⟩
  | none =>
    have hcap' : c.settings.maxDepth.filter (· < node'.depth) = none := hdepth ▸ hcap
    cases hrule : (s.select c symbol).1 with
    | none =>
      rw [resolve_of_unselected hcap hrule, resolve_of_unselected hcap' hrule]
      have hreport : (node.report (s.select c symbol).2.1).text =
          (node'.report (s.select c symbol).2.1).text := htext
      obtain ⟨found, h, h', htexts⟩ := c.modifiers.applyAll_frame hreport hmodifiers
      exact ⟨(s.select c symbol).2.1 ++ found, by rw [h, Node.problems_report, List.append_assoc],
        by rw [h', Node.problems_report, List.append_assoc], htexts, rfl, rfl⟩
    | some rule =>
      -- the children come from the rule, and the depth is all they take from the node
      let main := expandRule selected (node.report (s.select c symbol).2.1) rule
        (s.select c symbol).2.2
      let main' := expandRule selected (node'.report (s.select c symbol).2.1) rule
        (s.select c symbol).2.2
      obtain ⟨below, hbelow, hbelow', htext', hstate, hhalt⟩ : ∃ below,
          main.node.problems = node.problems ++ below ∧
          main'.node.problems = node'.problems ++ below ∧ main.node.text = main'.node.text ∧
          main.state = main'.state ∧ main.halt = main'.halt := by
        simp only [main, main', expandRule, Node.depth_report, Node.problems_report, hdepth,
          List.append_assoc, List.append_cancel_left_eq, exists_eq_left', and_self]
      cases hmain : main.halt with
      | some halt =>
        rw [resolve_of_halt hcap hrule rfl hmain, resolve_of_halt hcap' hrule rfl (hhalt ▸ hmain)]
        exact ⟨below, hbelow, hbelow', htext', hstate, hhalt⟩
      | none =>
        rw [resolve_of_done hcap hrule rfl hmain, resolve_of_done hcap' hrule rfl (hhalt ▸ hmain)]
        obtain ⟨found, h, h', htexts⟩ := c.modifiers.applyAll_frame htext' hmodifiers
        exact ⟨below ++ found, by rw [h, hbelow, List.append_assoc],
          by rw [h', hbelow', List.append_assoc], htexts, hstate, rfl⟩

variable {c selected}

/-- Modifiers apart, a tag is what the rule that is selected makes of it, also if that halts. -/
theorem resolve_of_selected {symbol rule : Text} {s t : State α}
    (hcap : c.settings.maxDepth.filter (· < node.depth) = none) (hmodifiers : node.modifiers = [])
    (hselect : s.select c symbol = (some rule, [], t)) :
    resolve c selected symbol node s = expandRule selected node rule t := by
  let main := expandRule selected node rule t
  have hmain : expandRule selected (node.report (s.select c symbol).2.1) rule
      (s.select c symbol).2.2 = main := by rw [hselect, node.report_nil]
  cases hhalt : main.halt with
  | some halt => exact resolve_of_halt hcap (by rw [hselect]) hmain hhalt
  | none =>
    have hunmodified : c.modifiers.applyAll main.node = main.node :=
      c.modifiers.applyAll_of_unmodified hmodifiers
    rw [resolve_of_done hcap (by rw [hselect]) hmain hhalt, hunmodified, ← hhalt]

/-- What is recorded for a tag before its symbol is looked up stays recorded. -/
theorem mem_problems_resolve {d : Diagnostic} (h : d ∈ node.problems) (symbol : Text)
    (s : State α) : d ∈ (resolve c selected symbol node s).node.problems := by
  obtain ⟨found, hfound, -⟩ : ∃ found, (resolve c selected symbol node s).node.problems =
      node.problems ++ found ∧ _ := resolve_frame _ _ rfl rfl rfl symbol s
  exact hfound ▸ List.mem_append_left _ h

end Expansion

end TextGrammar
