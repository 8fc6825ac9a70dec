import TextGrammar.Text

/-!
# Tables of names

A table keeps values under names, in the order in which the names first came. Each name occurs
once (`Named.nodup`). `insert` on a name that is there replaces its value and keeps its place;
on a new name it adds it at the end. `modify` changes a value in place.
-/

namespace TextGrammar

/-- Values under distinct names, in order. -/
structure Named (β : Type) where
  entries : List (Text × β)
  /-- No name occurs twice. -/
  nodup : (entries.map (·.1)).Nodup

namespace Named

variable {β γ : Type}

/-- The empty table. -/
def empty : Named β := ⟨[], List.nodup_nil⟩

instance : Inhabited (Named β) := ⟨empty⟩

/-- The names in order. -/
def names (t : Named β) : List Text := t.entries.map (·.1)

/-- The values in the order of their names. -/
def values (t : Named β) : List β := t.entries.map (·.2)

/-- The number of names. -/
def size (t : Named β) : Nat := t.entries.length

/-- The value under a name. -/
def find? (t : Named β) (name : Text) : Option β := t.entries.lookup name

/-- Whether a name is in the table. -/
def contains (t : Named β) (name : Text) : Bool := t.names.contains name

/-- Change every value; the names stay. -/
def mapValues (t : Named β) (f : Text → β → γ) : Named γ where
  entries := t.entries.map fun e => (e.1, f e.1 e.2)
  nodup := by simpa [List.map_map, Function.comp_def] using t.nodup

/-- Change the value under a name, if it is there. -/
def modify (t : Named β) (name : Text) (f : β → β) : Named β :=
  t.mapValues fun n v => if n = name then f v else v

/-- Put a value under a name. -/
def insert (t : Named β) (name : Text) (value : β) : Named β :=
  if h : name ∈ t.names then t.modify name fun _ => value
  else
    { entries := t.entries ++ [(name, value)]
      nodup := by
        rw [List.map_append, List.nodup_append]
        refine ⟨t.nodup, by simp, ?_⟩
        intro a ha b hb
        simp only [List.map_cons, List.map_nil, List.mem_singleton] at hb
        intro hab
        exact h (hb ▸ hab ▸ ha) }

/-- The table of a list of names with their values, added in order. -/
def ofList (entries : List (Text × β)) : Named β :=
  entries.foldl (fun t e => t.insert e.1 e.2) empty

/-- Keep the names that `p` holds of. -/
def filter (t : Named β) (p : Text → β → Bool) : Named β where
  entries := t.entries.filter fun e => p e.1 e.2
  nodup := t.nodup.sublist (List.filter_sublist.map _)

/-- Add all entries of the second table, in order, to the first. -/
def merge (t u : Named β) : Named β := u.entries.foldl (fun t e => t.insert e.1 e.2) t

@[simp] theorem names_mapValues (t : Named β) (f : Text → β → γ) :
    (t.mapValues f).names = t.names := by
  simp [names, mapValues]

@[simp] theorem names_modify (t : Named β) (name : Text) (f : β → β) :
    (t.modify name f).names = t.names := by
  simp [modify]

theorem names_insert (t : Named β) (name : Text) (value : β) :
    (t.insert name value).names = if name ∈ t.names then t.names else t.names ++ [name] := by
  unfold insert
  split
  · simp
  · simp [names]

end Named

end TextGrammar
