import Mathlib.Logic.Basic
import Mathlib.Tactic.SplitIfs
import TextGrammar.Named

/-!
# Looking names up

What `Named.find?` gives after each way of changing a table. A table is known by what is found
under the names: every operation changes the value under one name, or every value by the same
function.
-/

namespace TextGrammar.Named

variable {β γ : Type}

theorem find?_eq_none {t : Named β} {name : Text} : t.find? name = none ↔ name ∉ t.names := by
  simp only [find?, List.lookup_eq_none_iff, names, List.mem_map, bne_iff_ne, ne_eq]
  constructor
  · rintro h ⟨e, he, rfl⟩
    exact h e he rfl
  · rintro h e he rfl
    exact h ⟨e, he, rfl⟩

theorem contains_iff {t : Named β} {name : Text} :
    t.contains name = true ↔ ∃ v, t.find? name = some v := by
  rw [contains, List.contains_iff_mem, ← Option.ne_none_iff_exists', ne_eq, find?_eq_none, not_not]

/-- The names being distinct, a value is found under every name it is listed with. -/
theorem find?_eq_some {t : Named β} {name : Text} {v : β} :
    t.find? name = some v ↔ (name, v) ∈ t.entries := by
  obtain ⟨entries, nodup⟩ := t
  simp only [find?]
  induction entries with
  | nil => simp
  | cons e entries ih =>
    obtain ⟨n, w⟩ := e
    rw [List.map_cons, List.nodup_cons] at nodup
    rw [List.lookup_cons, List.mem_cons, Prod.mk.injEq]
    by_cases h : name = n
    · subst h
      have hfree : (name, v) ∉ entries := fun hv => nodup.1 (List.mem_map.2 ⟨_, hv, rfl⟩)
      simp [hfree, eq_comm]
    · rw [beq_false_of_ne h]
      simpa [h] using ih nodup.2

theorem find?_mapValues (t : Named β) (f : Text → β → γ) (name : Text) :
    (t.mapValues f).find? name = (t.find? name).map (f name) := by
  simp only [find?, mapValues]
  induction t.entries with
  | nil => rfl
  | cons e entries ih =>
    obtain ⟨n, v⟩ := e
    rw [List.map_cons, List.lookup_cons, List.lookup_cons, ih]
    by_cases h : name = n
    · subst h; simp
    · rw [beq_false_of_ne h]

theorem find?_modify (t : Named β) (name : Text) (f : β → β) (key : Text) :
    (t.modify name f).find? key =
      if key = name then (t.find? key).map f else t.find? key := by
  rw [modify, find?_mapValues]
  split_ifs with h
  · simp only [h]
  · simp

theorem find?_insert (t : Named β) (name : Text) (v : β) (key : Text) :
    (t.insert name v).find? key = if key = name then some v else t.find? key := by
  unfold insert
  split_ifs with hmem hkey hkey
  · obtain ⟨w, hw⟩ := Option.ne_none_iff_exists'.1 fun h => find?_eq_none.1 h hmem
    rw [find?_modify, if_pos hkey, hkey, hw, Option.map_some]
  · rw [find?_modify, if_neg hkey]
  · have hnone := find?_eq_none.2 hmem
    simp only [find?] at hnone ⊢
    rw [List.lookup_append, hkey, hnone]
    simp
  · simp only [find?]
    rw [List.lookup_append, List.lookup_cons, beq_false_of_ne hkey]
    simp

theorem find?_filter (t : Named β) (p : Text → β → Bool) (name : Text) :
    (t.filter p).find? name = (t.find? name).filter (p name) := by
  ext v
  rw [find?_eq_some, Option.filter_eq_some_iff, find?_eq_some]
  simp [filter]

theorem mem_entries_mapValues {t : Named β} {f : Text → β → γ} {name : Text} {w : γ} :
    (name, w) ∈ (t.mapValues f).entries ↔ ∃ v, (name, v) ∈ t.entries ∧ f name v = w := by
  simp only [← find?_eq_some, find?_mapValues, Option.map_eq_some_iff]

/-! ### Tables from their entries -/

theorem entries_foldl_insert (t : Named β) {entries : List (Text × β)}
    (h : (t.names ++ entries.map (·.1)).Nodup) :
    (entries.foldl (fun t e => t.insert e.1 e.2) t).entries = t.entries ++ entries := by
  induction entries generalizing t with
  | nil => simp
  | cons e entries ih =>
    obtain ⟨name, v⟩ := e
    rw [List.map_cons] at h
    have hnew : name ∉ t.names := fun hmem =>
      (List.nodup_append.1 h).2.2 name hmem name List.mem_cons_self rfl
    have hnames : (t.insert name v).names = t.names ++ [name] := by
      rw [names_insert, if_neg hnew]
    have hentries : (t.insert name v).entries = t.entries ++ [(name, v)] := by
      rw [insert, dif_neg hnew]
    rw [List.foldl_cons, ih, hentries, List.append_assoc, List.singleton_append]
    rwa [hnames, List.append_assoc, List.singleton_append]

theorem ofList_entries (t : Named β) : ofList t.entries = t := by
  obtain ⟨entries, nodup⟩ := t
  have h : (ofList entries).entries = entries := entries_foldl_insert empty nodup
  generalize ofList entries = u at h
  subst h
  rfl

end TextGrammar.Named
