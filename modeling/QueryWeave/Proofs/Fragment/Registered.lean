import QueryWeave.Proofs.Spread

/-!
# Registered Fragments

Libraries as they come about: by registering one body after the other. Whatever was registered,
every body of such a library has its spreads written by flat name, and begins with its type
condition.

- `Library.Registered`: libraries built by registrations.
- `Library.Registered.wellStored`: what holds of their bodies.
- `scanText_define`: definitions are read as a name and a body.
-/

namespace QueryWeave

/-! ## §1 Lookups -/

theorem flattenChars_flattenChars (path : List Char) :
    flattenChars (flattenChars path) = flattenChars path := by
  simp only [flattenChars, List.map_map]
  apply List.map_congr_left
  intro c _
  by_cases hc : c = '.' <;> simp [hc]

@[simp] theorem flattenPath_flattenPath (path : String) :
    flattenPath (flattenPath path) = flattenPath path := by
  simp [flattenPath, flattenChars_flattenChars]

theorem flattenPath_flatName (f : Fragment) : flattenPath f.flatName = f.flatName :=
  flattenPath_flattenPath f.path

/-- Flattening a path does not change what it leads to. -/
theorem Library.find?_flattenPath (lib : Library) (path : String) :
    lib.find? (flattenPath path) = lib.find? path := by
  rw [find?, find?, flattenPath_flattenPath]

theorem Library.flatName_of_find? {lib : Library} {path : String} {f : Fragment}
    (h : lib.find? path = some f) : f.flatName = flattenPath path := by
  simpa using List.find?_some h

/-- A fragment that is found at all is found by its flat name. -/
theorem Library.find?_flatName {lib : Library} {path : String} {f : Fragment}
    (h : lib.find? path = some f) : lib.find? f.flatName = some f := by
  have hname : flattenPath f.flatName = flattenPath path := by
    rw [flattenPath_flatName, lib.flatName_of_find? h]
  unfold find? at h ⊢
  rwa [hname]

/-- What is found has a definition. -/
theorem Library.definition_eq_ok_iff (lib : Library) (name text : String) :
    lib.definition name = .ok text ↔ ∃ f, lib.find? name = some f ∧ text = f.definition := by
  unfold definition lookup
  cases lib.find? name <;> simp [Except.map, eq_comm]

/-- Where nothing is found, it is the name as given that is missing. -/
theorem Library.definition_eq_error_iff (lib : Library) (name : String) (e : CompileError) :
    lib.definition name = .error e ↔ lib.find? name = none ∧ e = .fragmentNotFound name := by
  unfold definition lookup
  cases lib.find? name <;> simp [Except.map, eq_comm]

/-- The paths of a flat row are flat names already. -/
theorem FlatSpreads.flattenPath_eq {row : List Lexeme} (hflat : FlatSpreads row)
    {following : List Char} (h : Lexeme.Spells row following) :
    ∀ path ∈ spreadPaths row, flattenPath path = path := by
  intro path hpath
  obtain ⟨s, hs, rfl⟩ := List.mem_map.1 hpath
  obtain ⟨behind, -, hcuts, -⟩ := spells_of_mem_spreads h hs
  have hname := kind_of_beginsPath (formed_of_mem_spreads hs).head
  have hall := (hcuts.whole (.inr (by simp [hname]))).all_isNamePart hname
  have htext : s.pathText = s.head.text := by
    simp [Spread.pathText, Spread.pathRow, hflat s hs, Spread.segmentRow, Lexeme.spanText]
  rw [Spread.path, htext, flattenPath, String.toList_ofList, flattenChars_of_all hall]

/-! ## §2 Registrations -/

/-- A library built by registrations. The libraries of a program are of this sort, and so are all
that trees of fragments lead to. -/
inductive Library.Registered : Library → Prop
  | empty : Registered .empty
  | register {lib next : Library} {path body : String} :
      Registered lib → lib.register path body = .ok next → Registered next

/-- A fragment as registration stores it: its spreads are written by flat name, and its body begins
with a type condition. Both are checked or made once, when the fragment is registered. -/
structure Fragment.WellStored (f : Fragment) : Prop where
  flat : FlatSpreads f.row
  condition : beginsWithCondition f.row = true

theorem mem_place {f g : Fragment} {fragments : List Fragment}
    (h : g ∈ Library.place f fragments) : g = f ∨ g ∈ fragments := by
  induction fragments with
  | nil => simpa [Library.place] using h
  | cons first rest ih =>
    rw [Library.place] at h
    split at h
    · -- The fragment takes the place of the first one with its flat name
      rcases List.mem_cons.1 h with rfl | h
      · exact .inl rfl
      · exact .inr (List.mem_cons_of_mem _ h)
    · rcases List.mem_cons.1 h with rfl | h
      · exact .inr List.mem_cons_self
      · exact (ih h).imp id (List.mem_cons_of_mem _)

/-- A fragment that is placed is found under no other name. -/
theorem Library.find?_place_of_ne {f : Fragment} {fragments : List Fragment} {name : String}
    (h : f.flatName ≠ name) :
    (place f fragments).find? (fun g => g.flatName = name) =
      fragments.find? fun g => g.flatName = name := by
  induction fragments with
  | nil => simp [place, h]
  | cons first rest ih =>
    rw [place]
    split
    · -- The fragment that gives its place up has the same flat name, and so another one than `name`
      rename_i hsame
      have hfirst : first.flatName ≠ name := fun heq => h (hsame.symm.trans heq)
      rw [List.find?_cons_of_neg (by simpa using h), List.find?_cons_of_neg (by simpa using hfirst)]
    · rw [List.find?_cons, List.find?_cons, ih]

/-- A registration stores the body with its spreads flattened, and changes no other fragment.
Everything that is said of registered fragments starts from this, and not from the definition. -/
theorem Library.register_inversion {lib next : Library} {path body : String}
    (h : lib.register path body = .ok next) :
    beginsWithCondition (scanText body).lexemes = true ∧
      next = ⟨place ⟨path, String.ofList (flattenSpreads (scanText body))⟩ lib.fragments⟩ := by
  -- The body is refused for its form, refused for the path that is taken, or stored
  unfold register at h
  dsimp only at h
  split at h
  · cases h
  · rename_i hcondition
    have hcondition : beginsWithCondition (scanText body).lexemes = true := by
      simpa using hcondition
    split at h
    · split at h
      · cases h
      · cases h
        exact ⟨hcondition, rfl⟩
    · cases h
      exact ⟨hcondition, rfl⟩

/-- A registration leaves alone what is found under other flat names. -/
theorem Library.find?_register_of_ne {lib next : Library} {path body : String}
    (h : lib.register path body = .ok next) {name : String}
    (hname : flattenPath path ≠ flattenPath name) : next.find? name = lib.find? name := by
  obtain ⟨-, rfl⟩ := register_inversion h
  exact find?_place_of_ne hname

/-- Helper: the type condition is left alone when the spreads behind it are flattened. -/
private theorem beginsWithCondition_respread {rename : Spread → Lexeme} {row : List Lexeme}
    (h : beginsWithCondition row = true) : beginsWithCondition (respread rename row) = true := by
  match row, h with
  | on :: typeName :: rest, h =>
    simp only [beginsWithCondition, Bool.and_eq_true, decide_eq_true_eq] at h
    have hon : on.kind ≠ .ellipsis := by simp [Lexeme.isName_iff.1 h.1.1]
    have htype : typeName.kind ≠ .ellipsis := by simp [Lexeme.isName_iff.1 h.2]
    rw [respread_cons_single fun heq => absurd heq hon,
      respread_cons_single fun heq => absurd heq htype]
    simp [beginsWithCondition, h]

theorem Library.Registered.wellStored {lib : Library} (h : lib.Registered) :
    ∀ f ∈ lib.fragments, f.WellStored := by
  induction h with
  | empty => simp [Library.empty]
  | @register lib next path body _ hregister ih =>
    obtain ⟨hcondition, rfl⟩ := Library.register_inversion hregister
    intro f hf
    rcases mem_place hf with rfl | hf
    · -- The new body is stored as it was flattened, and scanned as it was stored
      have hflattened := flattened_flattened body.toList
      have hrow : (⟨path, String.ofList (flattenSpreads (scanText body))⟩ : Fragment).row =
          respread Spread.flattened (scanText body).lexemes := by
        simp only [Fragment.row, scanText, String.toList_ofList, flattenSpreads_eq,
          hflattened.scans]
      constructor
      · rw [hrow]
        exact hflattened.flat
      · rw [hrow]
        exact beginsWithCondition_respread hcondition
    · exact ih f hf

/-! ## §3 Definitions -/

/-- A definition tells its body. -/
theorem Fragment.define_inj {name body other : String} (h : define name body = define name other) :
    body = other := by
  have hchars := congrArg String.toList h
  simp only [define, String.toList_append] at hchars
  exact String.toList_inj.1 (List.append_cancel_left hchars)

/-- A definition is read as `fragment`, the name, and the lexemes of its body. This holds of every
body, also of one that is not well formed. -/
theorem scanText_define {name : String} (hname : IsName name.toList) (body : String) :
    (scanText (Fragment.define name body)).lexemes =
      ⟨['\n'], .name, "fragment".toList⟩ :: ⟨[' '], .name, name.toList⟩ ::
        ((scanText body).indent [' ']).lexemes := by
  have hgap : IsGap [' '] := rfl
  -- Both blanks are written by the definition itself, so neither name runs into what follows
  have hkeyword : (⟨['\n'], .name, "fragment".toList⟩ : Lexeme).Whole :=
    IsName.whole ⟨'f', "ragment".toList, rfl, by decide, by decide⟩ rfl
  have hspells : Lexeme.Spells
      [⟨['\n'], .name, "fragment".toList⟩, ⟨[' '], .name, name.toList⟩] (' ' :: body.toList) := by
    refine ⟨rfl, hkeyword.cuts ?_, hgap, (IsName.whole hname rfl).cuts ?_, trivial⟩
    · exact Lexeme.clearOf_of_separates _ (by decide) _
    · exact Lexeme.clearOf_of_separates _ (by decide) _
  have hchars : (Fragment.define name body).toList =
      Lexeme.charsOf [⟨['\n'], .name, "fragment".toList⟩, ⟨[' '], .name, name.toList⟩] ++
        (' ' :: body.toList) := by
    simp [Fragment.define, String.toList_append]
  rw [scanText, hchars, scan_of_spells hspells]
  have hbody := congrArg Scan.lexemes (scan_gap_append hgap body.toList)
  exact congrArg ([⟨['\n'], .name, "fragment".toList⟩, ⟨[' '], .name, name.toList⟩] ++ ·) hbody

end QueryWeave
