import QueryWeave.Proofs.Batch.Answers
import QueryWeave.Proofs.Batch.Isolation
import QueryWeave.Proofs.Operation.Compile
import QueryWeave.Proofs.Variable.Carried

/-!
# What a Commit Sends

The definitions and the variables of a commit, looked up under the names of one entry. Several
entries bring definitions along, and of those under one name only the first is sent. But names of
entries do not meet, and a fragment is shared under its own name by all that need it, with the same
definition. So every entry finds what it brought along.

- `Commit.Batch`: commits whose names do not meet.
- `Commit.Batch.find?_copied`, `Commit.Batch.find?_shared`: definitions.
- `Commit.Batch.find?_values`: variables.
-/

namespace QueryWeave

/-! ## §1 Bindings put together -/

namespace Bindings

variable {α : Type}

/-- Of bindings put over others, the later one counts. -/
theorem find?_putAll {later : Bindings α} (h : (names later).Nodup) (name : String)
    (known : Bindings α) :
    find? name (putAll known later) = (find? name later).or (find? name known) := by
  unfold putAll
  induction later generalizing known with
  | nil => simp
  | cons pair rest ih =>
    obtain ⟨bound, value⟩ := pair
    rw [names_cons, List.nodup_cons] at h
    rw [List.foldl_cons, ih h.2, find?]
    -- The names are distinct, so nothing behind this binding binds its name again
    by_cases heq : bound = name
    · subst heq
      rw [find?_eq_none_iff.2 h.1, if_pos rfl, find?_put_self]
      rfl
    · rw [if_neg heq, find?_put_of_ne (Ne.symm heq)]

end Bindings

/-! ## §2 Commits whose names do not meet -/

/-- The fragments of an entry are isolated, its alias being free. -/
theorem Woven.isolated {lib : Library} {template : Template} {values : JsonObject} {entry : Entry}
    (w : Woven lib template values entry) (hlib : lib.Registered)
    (hfree : lib.Free entry.aliasName) :
    Isolated lib entry.aliasName w.compiled.fragmentNames w.fragments := by
  obtain ⟨c⟩ := Library.compilation_of_compile w.compiles
  obtain ⟨known, hknown, hisolated⟩ := isolated_of_isolate hlib hfree c.order
  rw [w.isolates] at hknown
  cases hknown
  exact hisolated

namespace Commit

/-- A commit whose entries were woven against one library, under different aliases that are free in
the library. Aliases come from codes, so they are names; that they differ and are free is what a
session cannot promise, since codes may repeat and paths may look like aliases. -/
structure Batch (held : Commit) (lib : Library) : Prop where
  registered : lib.Registered
  woven : ∀ entry ∈ held.entries, ∃ template values, Nonempty (Woven lib template values entry)
  coded : ∀ entry ∈ held.entries, ∃ code, entry.aliasName = aliasOfCode code
  distinct : (held.entries.map Entry.aliasName).Nodup
  free : ∀ entry ∈ held.entries, lib.Free entry.aliasName

/-- The definitions are gathered as if one entry had brought them all along. -/
theorem fragments_eq_foldl (held : Commit) :
    held.fragments = (held.entries.flatMap Entry.fragments).foldl
      (fun acc pair => Bindings.putNew pair.1 pair.2 acc) [] := by
  rw [fragments, List.foldl_flatMap]

theorem find?_fragments (held : Commit) (name : String) :
    Bindings.find? name held.fragments =
      held.entries.findSome? fun entry => Bindings.find? name entry.fragments := by
  rw [fragments_eq_foldl, Bindings.find?_foldl_putNew, Bindings.find?_nil, Option.none_or,
    Bindings.find?_flatMap]

/-- A definition is sent if some entry brings it along and no entry brings another one. -/
theorem find?_fragments_eq {held : Commit} {name definition : String} {entry : Entry}
    (hentry : entry ∈ held.entries) (hfind : Bindings.find? name entry.fragments = some definition)
    (hagree : ∀ other ∈ held.entries, ∀ found,
      Bindings.find? name other.fragments = some found → found = definition) :
    Bindings.find? name held.fragments = some definition := by
  rw [find?_fragments]
  -- The batch takes the first entry that has the name, and all that have it agree on the text
  cases hsome : held.entries.findSome? fun entry => Bindings.find? name entry.fragments with
  | none =>
    rw [List.findSome?_eq_none_iff] at hsome
    rw [hsome entry hentry] at hfind
    cases hfind
  | some found =>
    obtain ⟨other, hother, hfound⟩ := List.exists_of_findSome?_eq_some hsome
    rw [hagree other hother found hfound]

namespace Batch

variable {held : Commit} {lib : Library} {template : Template} {values : JsonObject} {entry : Entry}

theorem isName_alias (h : held.Batch lib) (hentry : entry ∈ held.entries) :
    IsName entry.aliasName.toList := by
  obtain ⟨code, hcode⟩ := h.coded entry hentry
  exact hcode ▸ isName_aliasOfCode code

theorem eq_of_alias (h : held.Batch lib) {other : Entry} (hentry : entry ∈ held.entries)
    (hother : other ∈ held.entries) (heq : entry.aliasName = other.aliasName) : entry = other :=
  List.inj_on_of_nodup_map h.distinct hentry hother heq

/-- Entries are told apart by names that begin with their aliases. -/
theorem eq_of_entryName (h : held.Batch lib) {other : Entry} (hentry : entry ∈ held.entries)
    (hother : other ∈ held.entries) {name otherName : String}
    (heq : entryName entry.aliasName name = entryName other.aliasName otherName) :
    entry = other := by
  obtain ⟨code, hcode⟩ := h.coded entry hentry
  obtain ⟨code', hcode'⟩ := h.coded other hother
  rw [hcode, hcode'] at heq
  apply h.eq_of_alias hentry hother
  rw [hcode, hcode', (entryName_inj heq).1]

/-- And so they are by the names of their variables. -/
theorem eq_of_entryVariable (h : held.Batch lib) {other : Entry} (hentry : entry ∈ held.entries)
    (hother : other ∈ held.entries) {name otherName : String}
    (heq : entryVariable entry.aliasName name = entryVariable other.aliasName otherName) :
    entry = other := by
  obtain ⟨code, hcode⟩ := h.coded entry hentry
  obtain ⟨code', hcode'⟩ := h.coded other hother
  rw [hcode, hcode'] at heq
  apply h.eq_of_alias hentry hother
  rw [hcode, hcode', (entryVariable_inj heq).1]

/-- What an entry brings along under some name: the definition that the library has under this name,
or a copy under a name that begins with the alias. The two cannot meet, since the alias is free. -/
theorem brought (h : held.Batch lib) {other : Entry} (hother : other ∈ held.entries)
    {name found : String} (hfound : Bindings.find? name other.fragments = some found) :
    (∀ f, lib.find? name = some f → found = f.definition) ∧
        (∃ f ∈ lib.fragments, f.flatName = name) ∨
      ∃ own, name = entryName other.aliasName own := by
  obtain ⟨template, values, ⟨w⟩⟩ := h.woven other hother
  have hisolated := w.isolated h.registered (h.free other hother)
  obtain ⟨c⟩ := Library.compilation_of_compile w.compiles
  rw [w.fragments_eq] at hfound
  have hname : name ∈ Bindings.names w.fragments.definitions :=
    List.mem_map_of_mem (f := Prod.fst) (Bindings.mem_of_find? hfound)
  rcases hisolated.names name hname with ⟨hlisted, hshared⟩ | ⟨own, -, rfl⟩
  · -- Under a flat name there is the definition of that fragment
    obtain ⟨f, hfind, hflat, -, -⟩ := c.order.fragment name hlisted
    refine .inl ⟨fun g hg => ?_, f, lib.mem_of_find? hfind, hflat⟩
    have hdefinition := (hisolated.shared name hlisted hshared g hg).1
    rw [hfound] at hdefinition
    exact Option.some.inj hdefinition
  · exact .inr ⟨own, rfl⟩

/-- The copies of an entry are sent under its own names. -/
theorem find?_copied (h : held.Batch lib) (hentry : entry ∈ held.entries)
    (w : Woven lib template values entry) {name : String} (hname : name ∈ w.fragments.copied)
    {f : Fragment} (hfind : lib.find? name = some f) :
    Bindings.find? (entryName entry.aliasName name) held.fragments =
      some (Fragment.define (entryName entry.aliasName name)
        (copyBody entry.aliasName w.fragments.copied f.body)) := by
  have hisolated := w.isolated h.registered (h.free entry hentry)
  have hown := hisolated.copy name hname f hfind
  rw [← w.fragments_eq] at hown
  apply find?_fragments_eq hentry hown
  intro other hother found hfound
  -- A fragment has no such name, and the copies of other entries have other names
  rcases h.brought hother hfound with ⟨-, g, hg, hflat⟩ | ⟨own, heq⟩
  · exact absurd hflat (h.free entry hentry g hg name)
  · rw [← h.eq_of_entryName hentry hother heq, hown] at hfound
    exact (Option.some.inj hfound).symm

/-- Shared fragments are sent as the library defines them. -/
theorem find?_shared (h : held.Batch lib) (hentry : entry ∈ held.entries)
    (w : Woven lib template values entry) {name : String}
    (hlisted : name ∈ w.compiled.fragmentNames) (hshared : name ∉ w.fragments.copied)
    {f : Fragment} (hfind : lib.find? name = some f) :
    Bindings.find? name held.fragments = some f.definition := by
  have hisolated := w.isolated h.registered (h.free entry hentry)
  have hown := (hisolated.shared name hlisted hshared f hfind).1
  rw [← w.fragments_eq] at hown
  obtain ⟨c⟩ := Library.compilation_of_compile w.compiles
  obtain ⟨g, hg, hflat, -, -⟩ := c.order.fragment name hlisted
  apply find?_fragments_eq hentry hown
  intro other hother found hfound
  -- Whoever else brings this name along shares the same fragment
  rcases h.brought hother hfound with ⟨hsame, -⟩ | ⟨own, rfl⟩
  · exact hsame f hfind
  · exact absurd hflat (h.free other hother g (lib.mem_of_find? hg) own)

end Batch

/-! ## §3 Variables -/

/-- Helper: the values of one entry among those of several, none of which binds the name
otherwise. -/
private theorem find?_foldl_putAll {name : String} {sent : Option Json} {entries : List Entry}
    (hnodup : ∀ entry ∈ entries, (Bindings.names entry.values).Nodup)
    (hagree : ∀ entry ∈ entries,
      Bindings.find? name entry.values = sent ∨ Bindings.find? name entry.values = none)
    {known : JsonObject}
    (hknown : Bindings.find? name known = sent ∨ Bindings.find? name known = none)
    (hsome : Bindings.find? name known = sent ∨
      ∃ entry ∈ entries, Bindings.find? name entry.values = sent) :
    Bindings.find? name
      (entries.foldl (fun known entry => Bindings.putAll known entry.values) known) = sent := by
  induction entries generalizing known with
  | nil => exact hsome.elim id fun ⟨_, hmem, _⟩ => absurd hmem (by simp)
  | cons entry rest ih =>
    have hput := Bindings.find?_putAll (hnodup entry List.mem_cons_self) name known
    have hhere := hagree entry List.mem_cons_self
    apply ih (fun e he => hnodup e (List.mem_cons_of_mem _ he))
      (fun e he => hagree e (List.mem_cons_of_mem _ he))
    · rw [hput]
      rcases hhere with hhere | hhere <;> rcases hknown with hknown | hknown <;>
        cases sent <;> simp [hhere, hknown]
    · rcases hsome with hsome | ⟨e, he, hsome⟩
      · -- What was sent already is not replaced by anything else
        left
        rw [hput, hsome]
        rcases hhere with hhere | hhere <;> cases sent <;> simp [hhere]
      · rcases List.mem_cons.1 he with rfl | he
        · left
          rw [hput, hsome]
          rcases hknown with hknown | hknown <;> cases sent <;> simp [hknown]
        · exact .inr ⟨e, he, hsome⟩

/-- The variables of an entry are sent with the values that it was given. Every entry puts its
values under its own alias, so those of the others are out of the way. -/
theorem Batch.find?_values {held : Commit} {lib : Library} (h : held.Batch lib) {entry : Entry}
    (hentry : entry ∈ held.entries) (name : String) :
    Bindings.find? (entryVariable entry.aliasName name) held.values =
      Bindings.find? name entry.supplied := by
  have hown : Bindings.find? (entryVariable entry.aliasName name) entry.values =
      Bindings.find? name entry.supplied :=
    Bindings.find?_map_key (entryVariable entry.aliasName) (fun _ _ => entryVariable_cancel) name _
  have hnames : ∀ e : Entry,
      Bindings.names e.values = (Bindings.names e.supplied).map (entryVariable e.aliasName) := by
    intro e
    simp [Entry.values, Bindings.names, Function.comp_def]
  rw [← hown]
  refine find?_foldl_putAll (fun e he => ?_) (fun e he => ?_) (.inr rfl) (.inr ⟨entry, hentry, rfl⟩)
  · obtain ⟨template, values, ⟨w⟩⟩ := h.woven e he
    rw [hnames, w.supplied_eq]
    exact (nodup_stripModifiers values).map fun _ _ => entryVariable_cancel
  · by_cases hbinds : entryVariable entry.aliasName name ∈ Bindings.names e.values
    · -- Only the entry itself binds variables under its alias
      rw [hnames] at hbinds
      obtain ⟨other, -, heq⟩ := List.mem_map.1 hbinds
      have hsame := h.eq_of_entryVariable hentry he heq.symm
      exact .inl (hsame ▸ rfl)
    · exact .inr (Bindings.find?_eq_none_iff.2 hbinds)

end Commit

end QueryWeave
