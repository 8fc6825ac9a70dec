import Mathlib.Data.List.Forall2
import Mathlib.Data.List.Induction
import TextGrammar.Grammar.Plan
import TextGrammar.Proofs.Grammar.Reachable

/-!
# Merged documents

Of two documents that declare the same name the later one counts, but the earlier one has fixed the
place of the name: so the order of a merged document and what it declares come from different
documents. A table is known by the order of its names and by what is found under them
(`Named.ext_find?`), and merging does something simple to either (`Named.names_merge`,
`Named.find?_merge`). From this it follows that any number of documents may be merged in any
grouping (`Named.merge_assoc`).

The files of a plan are read one by one and merged on the way. That is the same as reading all of
them and merging what was read (`Plan.document_eq_ok`), because a merge does not fail. A merge of
valid documents is valid, since every definition in it comes from one of them; so a plan of files
only is never refused for its weights once they are read (`Document.merge_lastWins`).
-/

namespace TextGrammar

/-! ### Tables -/

namespace Named

variable {β : Type} {entries : List (Text × β)}

theorem entries_eq_filterMap (t : Named β) :
    t.entries = t.names.filterMap fun name => (t.find? name).map fun v => (name, v) := by
  have hfound : ∀ e ∈ t.entries, (t.find? e.1).map (fun v => (e.1, v)) = some e := by
    intro e he
    rw [find?_eq_some.2 he, Option.map_some]
  rw [names, List.filterMap_map]
  exact ((List.filterMap_congr hfound).trans List.filterMap_some).symm

/-- Two tables are the same if they have the same names in the same order and the same values under
them. -/
theorem ext_find? {t u : Named β} (hnames : t.names = u.names)
    (hfind : ∀ name, t.find? name = u.find? name) : t = u := by
  have hentries : t.entries = u.entries := by
    rw [entries_eq_filterMap, entries_eq_filterMap, hnames]
    simp only [hfind]
  cases t
  cases u
  cases hentries
  rfl

theorem names_foldl_insert (t : Named β) (h : (entries.map (·.1)).Nodup) :
    (entries.foldl (fun t e => t.insert e.1 e.2) t).names =
      t.names ++ (entries.map (·.1)).filter (· ∉ t.names) := by
  induction entries generalizing t with
  | nil => exact (List.append_nil _).symm
  | cons e entries ih =>
    obtain ⟨name, v⟩ := e
    rw [List.map_cons, List.nodup_cons] at h
    obtain ⟨hfree, h⟩ := h
    rw [List.foldl_cons, ih _ h, List.map_cons, names_insert]
    by_cases hmem : name ∈ t.names
    · simp [hmem]
    · -- the name is none of those that follow
      have hrest : (entries.map (·.1)).filter (· ∉ t.names ++ [name]) =
          (entries.map (·.1)).filter (· ∉ t.names) := by
        refine List.filter_congr fun other hother => ?_
        have hne : other ≠ name := fun heq => hfree (heq ▸ hother)
        simp [hne]
      rw [if_neg hmem, hrest, List.filter_cons_of_pos (by simpa using hmem), List.append_assoc,
        List.singleton_append]

theorem find?_foldl_insert (t : Named β) (h : (entries.map (·.1)).Nodup) (name : Text) :
    (entries.foldl (fun t e => t.insert e.1 e.2) t).find? name =
      (entries.lookup name).or (t.find? name) := by
  induction entries generalizing t with
  | nil => rfl
  | cons e entries ih =>
    obtain ⟨n, v⟩ := e
    rw [List.map_cons, List.nodup_cons] at h
    obtain ⟨hfree, h⟩ := h
    rw [List.foldl_cons, ih _ h, find?_insert, List.lookup_cons]
    by_cases hname : name = n
    · have hnone : entries.lookup n = none := by
        refine List.lookup_eq_none_iff.2 fun e he => ?_
        have hne : n ≠ e.1 := fun heq => hfree (heq ▸ List.mem_map_of_mem (f := (·.1)) he)
        simpa using hne
      rw [hname, hnone, if_pos rfl]
      simp
    · rw [if_neg hname, beq_false_of_ne hname]

variable (t u v : Named β)

/-- The names of the first table keep their places, and new ones follow in their order. -/
theorem names_merge : (t.merge u).names = t.names ++ u.names.filter (· ∉ t.names) :=
  names_foldl_insert t u.nodup

theorem find?_merge (name : Text) :
    (t.merge u).find? name = (u.find? name).or (t.find? name) :=
  find?_foldl_insert t u.nodup name

theorem empty_merge : empty.merge t = t := ofList_entries t

theorem merge_empty : t.merge empty = t := rfl

/-- Merging is associative, also in the order of the names. -/
theorem merge_assoc : (t.merge u).merge v = t.merge (u.merge v) := by
  refine ext_find? ?_ fun name => ?_
  · simp only [names_merge, List.filter_append, List.append_assoc, List.filter_filter]
    congr 2
    refine List.filter_congr fun name _ => ?_
    by_cases ht : name ∈ t.names
    · simp [ht]
    · simp [ht]
  · simp only [find?_merge, Option.or_assoc]

end Named

/-! ### Documents -/

namespace Document

variable {α : Type}

/-- Merge documents, the first one first. -/
def mergeAll (ds : List (Document α)) : Document α := ds.foldl Named.merge .empty

theorem foldl_merge (d : Document α) (ds : List (Document α)) :
    ds.foldl Named.merge d = d.merge (mergeAll ds) := by
  unfold mergeAll
  induction ds using List.reverseRecOn with
  | nil => rfl
  | append_singleton ds last ih =>
    simp only [List.foldl_append, List.foldl_cons, List.foldl_nil, ih, Named.merge_assoc]

theorem mergeAll_append (ds es : List (Document α)) :
    mergeAll (ds ++ es) = (mergeAll ds).merge (mergeAll es) := by
  rw [mergeAll, List.foldl_append, foldl_merge]
  rfl

/-- The last document that declares a name has its definition. -/
theorem find?_mergeAll (ds : List (Document α)) (name : Text) :
    (mergeAll ds).find? name = ds.reverse.findSome? (·.find? name) := by
  induction ds using List.reverseRecOn with
  | nil => rfl
  | append_singleton ds last ih =>
    have hlast : mergeAll (ds ++ [last]) = (mergeAll ds).merge last := by simp [mergeAll]
    rw [hlast, Named.find?_merge, ih, List.reverse_concat, List.findSome?_cons]
    cases last.find? name <;> rfl

variable [Scalar α] {a b : Document α} {ds : List (Document α)}

theorem validate_eq_ok_iff_find? {d : Document α} :
    d.validate = .ok () ↔ ∀ name definition, d.find? name = some definition →
      definition.fault? = none := by
  rw [validate_eq_ok]
  constructor
  · intro h name definition hfind
    exact h (name, definition) (Named.find?_eq_some.1 hfind)
  · rintro h ⟨name, definition⟩ he
    exact h name definition (Named.find?_eq_some.2 he)

/-- Every definition of merged documents comes from one of them. -/
theorem validate_mergeAll (h : ∀ d ∈ ds, d.validate = .ok ()) :
    (mergeAll ds).validate = .ok () := by
  rw [validate_eq_ok_iff_find?]
  intro name definition hfind
  rw [find?_mergeAll] at hfind
  obtain ⟨d, hd, hfind⟩ := List.exists_of_findSome?_eq_some hfind
  exact validate_eq_ok_iff_find?.1 (h d (List.mem_reverse.1 hd)) name definition hfind

theorem validate_merge (ha : a.validate = .ok ()) (hb : b.validate = .ok ()) :
    validate (a.merge b) = .ok () := by
  have hpair : a.merge b = mergeAll [a, b] := by
    simp only [mergeAll, List.foldl_cons, List.foldl_nil, Named.empty_merge]
  rw [hpair]
  exact validate_mergeAll (List.forall_mem_cons.2 ⟨ha, List.forall_mem_singleton.2 hb⟩)

theorem validate_of_validated {d d' : Document α} (h : d.validated = .ok d') :
    d'.validate = .ok () := by
  unfold validated at h
  cases hd : d.validate with
  | error e =>
    rw [hd] at h
    cases h
  | ok u =>
    rw [hd] at h
    cases h
    exact hd

theorem validate_of_readJson {text : Text} {d : Document Float} (h : readJson text = .ok d) :
    d.validate = .ok () := by
  unfold readJson at h
  split at h
  · exact validate_of_validated h
  · cases h

theorem validate_of_readRon {text : Text} {d : Document Float} (h : readRon text = .ok d) :
    d.validate = .ok () := by
  simp only [readRon] at h
  split at h
  · exact validate_of_validated h
  · cases h

end Document

/-! ### Plans -/

theorem bind_eq_ok {ε β γ : Type} {x : Except ε β} {f : β → Except ε γ} {r : γ} :
    x >>= f = .ok r ↔ ∃ y, x = .ok y ∧ f y = .ok r := by
  cases x with
  | error e => exact ⟨nofun, nofun⟩
  | ok y => exact ⟨fun h => ⟨y, rfl, h⟩, fun ⟨_, rfl, h⟩ => h⟩

/-- A file is there, and this is the document in it. -/
def FileContent.Reads (read : Text → Except (Failure Float) (Document Float)) (file : FileContent)
    (d : Document Float) : Prop :=
  file.text >>= read = .ok d

namespace Plan

open Document (readJson readRon mergeAll)

variable {p : Plan} {d merged : Document Float} {ds : List (Document Float)}
  {files : List FileContent} {read : Text → Except (Failure Float) (Document Float)}

/-- Files are merged if all of them can be read, and then what is in them is merged. -/
theorem mergeFiles_eq_ok :
    mergeFiles read files d = .ok merged ↔
      ∃ ds, List.Forall₂ (FileContent.Reads read) files ds ∧ merged = ds.foldl Named.merge d := by
  induction files generalizing d with
  | nil =>
    simp only [mergeFiles, List.forall₂_nil_left_iff, exists_eq_left, List.foldl_nil,
      Except.ok.injEq]
    exact eq_comm
  | cons file files ih =>
    have hfirst : mergeFiles read (file :: files) d = .ok merged ↔
        ∃ first, FileContent.Reads read file first ∧
          mergeFiles read files (d.merge first) = .ok merged := by
      simp only [mergeFiles, FileContent.Reads, bind_eq_ok]
      constructor
      · rintro ⟨t, ht, first, hread, hrest⟩
        exact ⟨first, ⟨t, ht, hread⟩, hrest⟩
      · rintro ⟨first, ⟨t, ht, hread⟩, hrest⟩
        exact ⟨t, ht, first, hread, hrest⟩
    rw [hfirst]
    constructor
    · rintro ⟨first, hread, hrest⟩
      obtain ⟨ds, hds, rfl⟩ := ih.1 hrest
      exact ⟨first :: ds, .cons hread hds, rfl⟩
    · rintro ⟨_, hds, rfl⟩
      obtain ⟨first, rest, hread, hrest, rfl⟩ := List.forall₂_cons_left_iff.1 hds
      exact ⟨first, hread, ih.2 ⟨rest, hrest, rfl⟩⟩

/-- **A plan merges all of its documents**, those of its files before the one given directly. -/
theorem document_eq_ok :
    p.document = .ok d ↔
      ∃ ds es, List.Forall₂ (FileContent.Reads readJson) p.jsonFiles ds ∧
        List.Forall₂ (FileContent.Reads readRon) p.ronFiles es ∧
        d = mergeAll (ds ++ es ++ p.definition.toList) := by
  simp only [document, bind_eq_ok, mergeFiles_eq_ok, mergeAll, List.foldl_append]
  constructor
  · rintro ⟨_, ⟨ds, hds, rfl⟩, _, ⟨es, hes, rfl⟩, ⟨⟩⟩
    refine ⟨ds, es, hds, hes, ?_⟩
    cases p.definition <;> rfl
  · rintro ⟨ds, es, hds, hes, rfl⟩
    refine ⟨_, ⟨ds, hds, rfl⟩, _, ⟨es, hes, rfl⟩, ?_⟩
    cases p.definition <;> rfl

theorem validate_of_reads (hread : ∀ t d, read t = .ok d → d.validate = .ok ())
    (h : List.Forall₂ (FileContent.Reads read) files ds) : ∀ d ∈ ds, d.validate = .ok () := by
  induction h with
  | nil => exact List.forall_mem_nil _
  | cons hfirst hrest ih =>
    obtain ⟨t, -, hfirst⟩ := bind_eq_ok.1 hfirst
    exact List.forall_mem_cons.2 ⟨hread t _ hfirst, ih⟩

theorem validate_of_document (hdefinition : p.definition = none) (h : p.document = .ok d) :
    d.validate = .ok () := by
  obtain ⟨ds, es, hds, hes, rfl⟩ := document_eq_ok.1 h
  rw [hdefinition, Option.toList_none, List.append_nil]
  refine Document.validate_mergeAll (List.forall_mem_append.2 ⟨?_, ?_⟩)
  · exact validate_of_reads (fun _ _ => Document.validate_of_readJson) hds
  · exact validate_of_reads (fun _ _ => Document.validate_of_readRon) hes

theorem build_of_valid (h : p.document = .ok d) (hvalid : d.validate = .ok ()) :
    p.build = p.baseSettings.map fun settings =>
      { symbols := .ofDocument d, modifiers := p.modifiers, fallbacks := p.fallbacks
        source := p.source
        settings := { settings with maxDepth := p.maxDepth.getD settings.maxDepth } } := by
  rw [build, h]
  cases hsettings : p.baseSettings with
  | error failure => rfl
  | ok settings => exact Grammar.ofDocument_of_valid hvalid _ _ _ _

theorem baseSettings_ne_weights (p : Plan) (symbol : Text) (fault : WeightFault Float) :
    p.baseSettings ≠ .error (.weights symbol fault) := by
  have hread : ∀ file : FileContent,
      file.text.bind Settings.readRon ≠ .error (.weights symbol fault) := by
    intro file
    unfold FileContent.text
    cases file with
    | error fileFault => nofun
    | ok bytes =>
      dsimp only
      cases String.fromUTF8? bytes with
      | none => nofun
      | some t =>
        simp only [Except.bind, Settings.readRon]
        split <;> nofun
  unfold baseSettings
  split
  · nofun
  · exact hread _
  · nofun

theorem build_ne_weights (hdefinition : p.definition = none) (h : p.document = .ok d)
    (symbol : Text) (fault : WeightFault Float) : p.build ≠ .error (.weights symbol fault) := by
  intro hbuild
  rw [build_of_valid h (validate_of_document hdefinition h)] at hbuild
  cases hsettings : p.baseSettings with
  | ok settings =>
    rw [hsettings] at hbuild
    cases hbuild
  | error failure =>
    rw [hsettings] at hbuild
    cases hbuild
    exact p.baseSettings_ne_weights symbol fault hsettings

end Plan

namespace Document

variable {α : Type} [Scalar α]

/-- **Merging is a monoid in which the last declaration of a name counts.**  It is associative, also
in the order of the names, and the empty document changes nothing. A merged document has the names
of the first in their places and the new ones of the second behind them, each once. Of any number of
documents the last one that declares a name has its definition, whatever the grouping, and if all
are valid the merge is. So a plan of nothing but files is not refused for its weights once these are
read. -/
theorem merge_lastWins :
    (∀ a b c : Document α, (a.merge b).merge c = a.merge (b.merge c)) ∧
      (∀ a : Document α, Named.empty.merge a = a ∧ a.merge .empty = a) ∧
      (∀ a b : Document α, (a.merge b).names.Nodup ∧
        (a.merge b).names = a.names ++ b.names.filter (· ∉ a.names) ∧
        (∀ name, (a.merge b).find? name = (b.find? name).or (a.find? name)) ∧
        (a.validate = .ok () → b.validate = .ok () → validate (a.merge b) = .ok ())) ∧
      (∀ ds es : List (Document α),
        mergeAll (ds ++ es) = (mergeAll ds).merge (mergeAll es) ∧
        (∀ name, (mergeAll ds).find? name = ds.reverse.findSome? (·.find? name)) ∧
        ((∀ d ∈ ds, d.validate = .ok ()) → (mergeAll ds).validate = .ok ())) ∧
      ∀ p : Plan, p.definition = none → ∀ d, p.document = .ok d →
        d.validate = .ok () ∧ ∀ symbol fault, p.build ≠ .error (.weights symbol fault) := by
  refine ⟨Named.merge_assoc, fun a => ⟨a.empty_merge, a.merge_empty⟩, fun a b => ?_,
    fun ds es => ?_, fun p hdefinition d h => ?_⟩
  · exact ⟨(a.merge b).nodup, a.names_merge b, a.find?_merge b, validate_merge⟩
  · exact ⟨mergeAll_append ds es, find?_mergeAll ds, validate_mergeAll⟩
  · exact ⟨p.validate_of_document hdefinition h, p.build_ne_weights hdefinition h⟩

/-- The first file fixes the place of a name that the second declares anew, with weights. The two
files come before the third, which is in another format. -/
theorem merge_lastWins_files :
    let p : Plan :=
      { jsonFiles := [.ok "\x7b\"a\": \"1\", \"b\": [\"2\"]\x7d".toUTF8,
          .ok ("\x7b\"c\": \"3\", " ++
            "\"a\": \x7b\"rules\": [\"x\", \"y\"], \"weights\": [0, 1]\x7d\x7d").toUTF8]
        ronFiles := [.ok "\x7b\"b\": \"4\", \"d\": \"5\"\x7d".toUTF8]
        source := .fixed 0 }
    p.definition = none ∧ ∃ d, p.document = .ok d ∧ d.names = [['a'], ['b'], ['c'], ['d']] ∧
      (d.find? ['b']).map Definition.rules = some [['4']] ∧ d.validate = .ok () ∧
      validate (d.merge d) = .ok () ∧ (mergeAll [d, .empty]).validate = .ok () ∧
      ∀ symbol fault, p.build ≠ .error (.weights symbol fault) := by
  intro p
  let look (d : Document Float) : List Text × Option (List Text) :=
    (d.names, (d.find? ['b']).map Definition.rules)
  have hlook : p.document.toOption.map look = some ([['a'], ['b'], ['c'], ['d']], some [['4']]) := by
    decide +kernel
  cases hd : p.document with
  | error failure =>
    rw [hd] at hlook
    cases hlook
  | ok d =>
    rw [hd] at hlook
    obtain ⟨hnames, hrules⟩ := Prod.mk.inj (Option.some.inj hlook)
    obtain ⟨-, -, htwo, hany, hbuild⟩ := merge_lastWins (α := Float)
    obtain ⟨hvalid, hweights⟩ := hbuild p rfl d hd
    obtain ⟨-, -, -, hmerged⟩ := htwo d d
    obtain ⟨-, -, hall⟩ := hany [d, .empty] []
    have hboth : ∀ d' ∈ [d, .empty], d'.validate = .ok () :=
      List.forall_mem_cons.2 ⟨hvalid, List.forall_mem_singleton.2 rfl⟩
    exact ⟨rfl, d, rfl, hnames, hrules, hvalid, hmerged hvalid hvalid, hall hboth, hweights⟩

end Document

end TextGrammar
