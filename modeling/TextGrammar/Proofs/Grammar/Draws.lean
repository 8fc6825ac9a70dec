import TextGrammar.Proofs.Expansion.Derivation
import TextGrammar.Proofs.Grammar.Frame
import TextGrammar.Proofs.Grammar.Replay
import TextGrammar.Proofs.Selection

/-!
# One draw for each selection

A tag with a clause looks its symbol up once. Either that draws a value and gives a rule, or it
draws nothing and the symbol is reported: as missing, as empty, or as lying below the cap. Nothing
else draws, and nothing else reports these. So the values that an expansion has drawn can be counted
without the source, by the tags that it met and the problems that its root has
(`Grammar.source_expand`), although some of these tags are in no tree that anybody gets to see.

Of the stores this needs that they are fair: weighted rules have as many weights, and one of them
is positive. Then a store with active rules never fails to give one.
-/

namespace TextGrammar

variable {α : Type}

/-- A tag reports that it has not selected a rule. -/
def Diagnostic.isUnselected : Diagnostic → Bool
  | missingSymbol _ | emptySymbol _ | depthExceeded _ _ => true
  | _ => false

/-- A tag with a clause was met. -/
def Expansion.Event.isTag : Event → Bool
  | tag _ => true
  | push _ _ _ | pop _ _ => false

theorem countP_isUnselected_scan (rule : Text) :
    (scan rule).problems.countP (·.isUnselected) = 0 := by
  refine List.countP_eq_zero.2 fun d hd => ?_
  have hscan := isOfScan_of_mem_scan hd
  cases d <;> simp_all [Diagnostic.isOfScan, Diagnostic.isUnselected]

/-! ### Fair stores -/

section Fair

variable [Scalar α]

/-- Weighted rules have as many weights, and a positive one among them. -/
def Store.Fair (s : Store α) : Prop :=
  ∀ weights ∈ s.weights, s.base ≠ [] →
    s.base.length = weights.length ∧ ∃ w ∈ weights, Scalar.lt Scalar.zero w = true

instance (s : Store α) : Decidable s.Fair := by
  unfold Store.Fair
  infer_instance

/-- All stores of a table are fair. -/
def Symbols.Fair (t : Symbols α) : Prop := ∀ e ∈ t.entries, e.2.Fair

theorem Store.Fair.exists_pick {s : Store α} (h : s.Fair) (hactive : s.active.isEmpty = false)
    (value : α) : ∃ rule, s.pick value = some rule := by
  have hne : s.active ≠ [] := by simpa using hactive
  unfold pick
  split
  · rename_i hoverrides
    rw [active, hoverrides] at hne
    exact exists_pickUniform hne value
  · rename_i weights hoverrides hweights
    rw [active, hoverrides] at hne
    obtain ⟨hlength, hpos⟩ := h weights hweights hne
    exact exists_pickWeighted hlength hpos value
  · rename_i hoverrides _
    rw [active, hoverrides] at hne
    exact exists_pickUniform hne value

namespace Symbols

variable {t u : Symbols α}

/-- New stores have no base, and old ones keep theirs. -/
theorem Extends.fair (h : t.Extends u) (ht : t.Fair) : u.Fair := by
  obtain ⟨added, heq, hadded⟩ := h
  intro e he
  have hmem : (e.1, e.2.clear) ∈ t.clear.entries ++ added := by
    rw [← heq]
    exact List.mem_map_of_mem he
  rcases List.mem_append.1 hmem with hold | hnew
  · obtain ⟨e', he', hclear⟩ := List.mem_map.1 hold
    have hstore : e'.2.clear = e.2.clear := (Prod.mk.inj hclear).2
    have hfair : e'.2.clear.Fair := ht e' he'
    rwa [hstore] at hfair
  · intro weights _ hbase
    exact absurd (hadded _ hnew).2 hbase

theorem fair_of_active? {name : Text} {s : Store α} (ht : t.Fair)
    (h : t.active? name = some s) : s.Fair :=
  ht (name, s) (Named.find?_eq_some.1 (Option.filter_eq_some_iff.1 h).1)

theorem fair_of_resolve? {fallbacks : List (Symbols α)} {name : Text} {s : Store α} (ht : t.Fair)
    (hfallbacks : ∀ f ∈ fallbacks, f.Fair) (h : t.resolve? fallbacks name = some s) : s.Fair := by
  rcases Option.or_eq_some_iff.1 h with hown | ⟨-, hfallback⟩
  · exact fair_of_active? ht hown
  · obtain ⟨f, hf, hactive⟩ := List.exists_of_findSome?_eq_some hfallback
    exact fair_of_active? (hfallbacks f hf) hactive

end Symbols

end Fair

/-! ### Paid tags -/

namespace Expansion

/-- Between the states every tag that was met has drawn a value or recorded a problem, and so have
as many tags that were met before as are owed. -/
def Paid (owed : Nat) (problems : List Diagnostic) (s t : State α) : Prop :=
  ∃ k, t.source = s.source.skip k ∧
    t.trace.countP (·.isTag) + owed =
      s.trace.countP (·.isTag) + (k + problems.countP (·.isUnselected))

variable {s t u : State α} {owed owed' : Nat} {ds ds' : List Diagnostic}

theorem Paid.trans (h : Paid owed ds s t) (h' : Paid owed' ds' t u) :
    Paid (owed + owed') (ds ++ ds') s u := by
  obtain ⟨k, hsource, htags⟩ := h
  obtain ⟨k', hsource', htags'⟩ := h'
  refine ⟨k + k', by rw [hsource', hsource, Source.skip_skip], ?_⟩
  rw [List.countP_append]
  omega

theorem Paid.of_eq (hsource : t.source = s.source)
    (htags : t.trace.countP (·.isTag) = s.trace.countP (·.isTag))
    (hds : ds.countP (·.isUnselected) = 0) : Paid 0 ds s t :=
  ⟨0, hsource, by omega⟩

/-- The stores only get other stacks, and if they are fair every tag has paid. -/
structure Steady [Scalar α] (owed : Nat) (problems : List Diagnostic) (s t : State α) : Prop where
  stores : s.symbols.Extends t.symbols
  paid : s.symbols.Fair → Paid owed problems s t

variable [Scalar α] {c : Context α}

theorem Steady.trans (h : Steady owed ds s t) (h' : Steady owed' ds' t u) :
    Steady (owed + owed') (ds ++ ds') s u :=
  ⟨h.stores.trans h'.stores, fun hs => (h.paid hs).trans (h'.paid (h.stores.fair hs))⟩

theorem Steady.of_problems (s : State α) (hds : ds.countP (·.isUnselected) = 0) :
    Steady 0 ds s s :=
  ⟨.refl _, fun _ => .of_eq rfl rfl hds⟩

theorem steady_push (s : State α) (scope : Scope) (name : Text) (rules : List Text) :
    Steady 0 [] s (s.push scope name rules) :=
  ⟨Symbols.extends_push s.symbols name rules, fun _ =>
    .of_eq rfl (List.countP_cons_of_neg (by simp [Event.isTag])) rfl⟩

theorem steady_pop (s : State α) (scope : Scope) (name : Text) :
    Steady 0 (s.pop scope name).1 s (s.pop scope name).2 := by
  refine ⟨Symbols.extends_pop s.symbols name, fun _ => ?_⟩
  refine .of_eq rfl (List.countP_cons_of_neg (by simp [Event.isTag])) ?_
  simp only [State.pop, Symbols.pop_fst]
  split_ifs <;> rfl

theorem steady_popAll (s : State α) (scope : Scope) (names : List Text) :
    Steady 0 (s.popAll scope names).1 s (s.popAll scope names).2 := by
  induction names generalizing s with
  | nil => exact .of_problems s rfl
  | cons name names ih => exact (steady_pop s scope name).trans (ih _)

theorem steady_perform (scope : Scope) (action : Action) (done : List Node) (s : State α) :
    Steady 0 (perform scope action done s).1 s (perform scope action done s).2 := by
  cases action with
  | push target rules => exact steady_push s scope target _
  | pop target => exact steady_pop s scope target
  | evaluate rule => exact .of_problems s rfl

theorem steady_applyAll (r : Registry) (node : Node) (s : State α) :
    ∃ found, (r.applyAll node).problems = node.problems ++ found ∧ Steady 0 found s s := by
  unfold Registry.applyAll
  generalize node.modifiers = references
  induction references generalizing node with
  | nil => exact ⟨[], (List.append_nil _).symm, .of_problems s rfl⟩
  | cons reference references ih =>
    obtain ⟨found, hfound, hsteady⟩ := ih (r.apply node reference)
    rw [List.foldl_cons, hfound]
    rcases r.problems_apply node reference with h | h
    · exact ⟨found, by rw [h], hsteady⟩
    · have hmissing : Steady 0 [.missingModifier (ModifierSpec.read reference).name] s s :=
        .of_problems s rfl
      exact ⟨_, by rw [h, List.append_assoc], hmissing.trans hsteady⟩

/-- A tag that is met owes a selection. -/
theorem Steady.of_enter (symbol : Text) (h : Steady 1 ds (s.enter symbol) t) :
    Steady 0 ds s t := by
  refine ⟨h.stores, fun hs => ?_⟩
  obtain ⟨k, hsource, htags⟩ := h.paid hs
  have henter : (s.enter symbol).trace.countP (·.isTag) = s.trace.countP (·.isTag) + 1 :=
    List.countP_cons_of_pos rfl
  exact ⟨k, hsource, by omega⟩

/-- A selection draws a value, or it is reported and gives the placeholder. -/
theorem steady_select (hc : ∀ f ∈ c.fallbacks, f.Fair) (symbol : Text) (s : State α) :
    Steady 1 (s.select c symbol).2.1 s (s.select c symbol).2.2 := by
  refine ⟨.refl _, fun hs => ?_⟩
  cases hresolve : s.symbols.resolve? c.fallbacks symbol with
  | none =>
    simp only [State.select, Symbols.select_of_unresolved hresolve, Symbols.unresolved_eq]
    refine ⟨0, rfl, ?_⟩
    split_ifs <;> rfl
  | some store =>
    have hfair := Symbols.fair_of_resolve? hs hc hresolve
    obtain ⟨rule, hrule⟩ := hfair.exists_pick (Symbols.active_of_resolve? hresolve)
      s.source.next.1
    simp only [State.select, Symbols.select_of_resolved hresolve, hrule]
    exact ⟨1, rfl, rfl⟩

mutual

/-- Every tag that is met while a node is expanded pays for itself. -/
theorem Derives.steady (hc : ∀ f ∈ c.fallbacks, f.Fair) : ∀ {node n : Node} {s t : State α},
    Derives c node s n t → ∃ found, n.problems = node.problems ++ found ∧ Steady 0 found s t
  | _, _, s, _, .plain _ => ⟨[], (List.append_nil _).symm, .of_problems s rfl⟩
  | _, _, s, _, .silent _ _ => ⟨[], (List.append_nil _).symm, .of_problems s rfl⟩
  | node, _, s, _, .unparsed _ h =>
    have hscan : Steady 0 (scan node.raw).problems s s :=
      .of_problems s (countP_isUnselected_scan node.raw)
    ⟨_, rfl, hscan.trans (h.steady hc)⟩
  | _, _, _, _, .action _ h => ⟨_, rfl, (h.steady hc).trans (steady_perform _ _ _ _)⟩
  | node, _, s, _, @Derives.tag _ _ _ _ _ clause problems _ _ u _ hread hactions hmain => by
    obtain ⟨found, hfound, hpaid⟩ := hmain.steady hc
    have hclause : clause.problems.countP (·.isUnselected) = 0 := by
      rw [(Tag.of_read_eq_clause hread).1]
      exact countP_isUnselected_scan node.raw
    -- the selection pays what the tag owes since it was met
    have hmet : Steady 1 (clause.problems ++ problems ++ found) (s.enter clause.symbol) u :=
      ((Steady.of_problems _ hclause).trans (hactions.steady hc)).trans hpaid
    refine ⟨_, ?_, (hmet.of_enter clause.symbol).trans (steady_popAll u .undo _)⟩
    simp [hfound, Node.report, enterClause]

theorem DerivesEach.steady (hc : ∀ f ∈ c.fallbacks, f.Fair) : ∀ {nodes ns : List Node}
    {s t : State α}, DerivesEach c nodes s ns t → Steady 0 (ns.flatMap (·.problems)) s t
  | _, _, s, _, .nil => .of_problems s rfl
  | _, _, _, _, .cons hfresh h hrest => by
    obtain ⟨found, hfound, hsteady⟩ := h.steady hc
    rw [hfresh.problems, List.nil_append] at hfound
    rw [List.flatMap_cons, hfound]
    exact hsteady.trans (hrest.steady hc)

theorem Prepares.steady (hc : ∀ f ∈ c.fallbacks, f.Fair) : ∀ {depth : Nat} {actions : List Action}
    {ds : List Diagnostic} {s t : State α}, Prepares c depth actions s ds t → Steady 0 ds s t
  | _, _, _, s, _, .nil => .of_problems s rfl
  | _, _, _, _, _, .cons h hrest =>
    ((h.steady hc).trans (steady_perform _ _ _ _)).trans (hrest.steady hc)

theorem Resolves.steady (hc : ∀ f ∈ c.fallbacks, f.Fair) : ∀ {symbol : Text} {node n : Node}
    {s t : State α}, Resolves c symbol node s n t →
      ∃ found, n.problems = node.problems ++ found ∧ Steady 1 found s t
  | _, _, _, _, _, .capped _ => ⟨_, rfl, .refl _, fun _ => ⟨0, rfl, rfl⟩⟩
  | symbol, node, _, s, _, .unselected _ _ => by
    obtain ⟨found, hfound, hmodifiers⟩ := steady_applyAll c.modifiers
      (node.report (s.select c symbol).2.1) (s.select c symbol).2.2
    rw [Node.problems_report, List.append_assoc] at hfound
    exact ⟨_, hfound, (steady_select hc symbol s).trans hmodifiers⟩
  | symbol, node, _, s, t, @Resolves.selected _ _ _ _ _ _ rule children _ _ _ h => by
    obtain ⟨found, hfound, hmodifiers⟩ := steady_applyAll c.modifiers
      ((node.report (s.select c symbol).2.1).gather rule children) t
    have hscan : Steady 0 (scan rule).problems (s.select c symbol).2.2 (s.select c symbol).2.2 :=
      .of_problems _ (countP_isUnselected_scan rule)
    refine ⟨_, ?_, (steady_select hc symbol s).trans ((hscan.trans (h.steady hc)).trans hmodifiers)⟩
    rw [hfound]
    simp [Node.gather, Node.report]

end

end Expansion

/-! ### Grammars -/

namespace Grammar

variable [Scalar α] {g : Grammar α} {rule : Text} {keepEscapes : Bool}

/-- **Every value that is drawn is drawn by a tag, and every other tag is reported.**  If the stores
of a grammar and of its fallbacks are fair and the expansion of a rule does not halt, then it has
drawn as many values as it has met tags with a clause, wherever they were, less those for which the
root has the report that nothing was selected. -/
theorem source_expand (hg : g.symbols.Fair) (hfallbacks : ∀ f ∈ g.fallbacks, f.symbols.Fair)
    (hdone : (g.expand rule keepEscapes).halt = none) :
    let e := g.expand rule keepEscapes
    let tags := e.trace.countP (·.isTag)
    let unselected := e.node.problems.countP (·.isUnselected)
    unselected ≤ tags ∧ e.grammar.source = g.source.skip (tags - unselected) := by
  intro e tags unselected
  let o := Expansion.expand g.context g.settings.levels (.root rule) g.state
  have hhalt : o.halt = none := (halt_expand g rule keepEscapes).symm.trans hdone
  have hc : ∀ f ∈ g.context.fallbacks, f.Fair := by
    intro f hf
    obtain ⟨f', hf', rfl⟩ := List.mem_map.1 hf
    exact hfallbacks f' hf'
  obtain ⟨found, hfound, hsteady⟩ :=
    (Expansion.derives_expand g.settings.levels (.root rule) g.state rfl hhalt).steady hc
  obtain ⟨k, hsource, hcount⟩ := hsteady.paid hg
  have htags : tags = o.state.trace.countP (·.isTag) := by
    have htrace : e.trace = o.state.trace.reverse := trace_expand g rule keepEscapes
    simp only [tags, htrace, List.countP_reverse]
  have hunselected : unselected = found.countP (·.isUnselected) := by
    have hproblems : e.node.problems = (Node.root rule).problems ++ found :=
      (problems_expand g rule keepEscapes).trans hfound
    have hroot : (Node.root rule).problems.countP (·.isUnselected) = 0 := by
      simp only [Node.root]
      split_ifs <;> rfl
    simp only [unselected, hproblems, List.countP_append, hroot, Nat.zero_add]
  have hsum : tags = k + unselected := by
    rw [htags, hunselected]
    exact hcount.trans (Nat.zero_add _)
  have hgrammar : e.grammar.source = o.state.source :=
    congrArg Grammar.source (grammar_expand g rule keepEscapes)
  refine ⟨by omega, ?_⟩
  rw [hgrammar, hsource, hsum, Nat.add_sub_cancel]
  rfl

/-- Tags in alternatives that are pushed, in a text that is evaluated and in the tree: of weighted
rules, of a fallback, of rules that were pushed, below the cap, and of symbols without rules. -/
theorem source_expand_capped :
    let rules := ofRules [("c", ["#a#"]), ("e", [])]
    let weighted : Symbols Float :=
      rules.symbols.insert ['a'] (Symbols.declare ['a'] (.weighted [['x'], ['y']] [1, 3]))
    let g : Grammar Float :=
      { rules with
        symbols := weighted, fallbacks := [ofRules [("f", ["#c#"])]], source := .fixed 0.5
        settings := { maxDepth := some 3 } }
    let e := g.expand "[#c#][p:#a#,#none#]#[q:#a#]f##p##e##[r:1]r#".toList false
    e.halt = none ∧ e.node.text = "y((none))((e))1".toList ∧
      e.trace.countP (·.isTag) = 11 ∧ e.node.problems.countP (·.isUnselected) = 3 ∧
      e.grammar.source = g.source.skip 8 := by
  intro rules weighted g e
  have hdone : e.halt = none := by decide +kernel
  have hg : g.symbols.Fair := by
    have hfair : ∀ e ∈ g.symbols.entries, e.2.Fair := by decide +kernel
    exact hfair
  have hfallbacks : ∀ f ∈ g.fallbacks, f.symbols.Fair := by
    have hfair : ∀ f ∈ g.fallbacks, ∀ e ∈ f.symbols.entries, e.2.Fair := by decide +kernel
    exact hfair
  have htags : e.trace.countP (·.isTag) = 11 := by decide +kernel
  have hunselected : e.node.problems.countP (·.isUnselected) = 3 := by decide +kernel
  obtain ⟨-, hsource⟩ : _ ∧ e.grammar.source = g.source.skip _ :=
    source_expand hg hfallbacks hdone
  refine ⟨hdone, by decide +kernel, htags, hunselected, ?_⟩
  rw [hsource, htags, hunselected]

end Grammar

end TextGrammar
