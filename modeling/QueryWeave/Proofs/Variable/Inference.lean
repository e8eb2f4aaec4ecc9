import QueryWeave.Proofs.Names
import QueryWeave.Proofs.Operation.Printing
import QueryWeave.Proofs.Variable.Findings

/-!
# Inferred Declarations Can Be Printed

A key of one of the documented forms gives its variable a name and a type that are read back from a
signature. Keys of other forms may not: what stands behind the exclamation mark is printed as it is.

- `DocumentedKey`: the documented forms.
- `printable_of_infer`: what is inferred from such keys.
-/

namespace QueryWeave

/-! ## §1 Documented keys -/

/-- Whether a text is a type reference, with nothing in front of it or behind: no blank, and no
comment either, which would hide what is printed behind it. -/
def IsTypeReference (text : String) : Prop :=
  Derives .typeReference (scanText text).lexemes ∧
    Lexeme.spanText (scanText text).lexemes = text.toList

/-- The documented forms of a key: `name`, `name!` and `name!Type`. The source reads any key, and
takes whatever stands behind the exclamation mark for a type. Types are those of the grammar, so
lists such as `name![Type]` are among them. -/
inductive DocumentedKey : String → Prop
  | bare {name : String} (hname : IsName name.toList) : DocumentedKey name
  | nonNull {name : String} (hname : IsName name.toList) : DocumentedKey (name ++ "!")
  | typed {name type : String} (hname : IsName name.toList) (htype : IsTypeReference type) :
      DocumentedKey (name ++ "!" ++ type)

/-- Helper: a key is split behind the name. -/
private theorem split_key {key name : String} {behind : List Char} (hname : IsName name.toList)
    (hkey : key.toList = name.toList ++ behind) (hbehind : behind.head?.all (· = '!') = true) :
    String.ofList (key.toList.takeWhile (· ≠ '!')) = name ∧
      key.toList.dropWhile (· ≠ '!') = behind := by
  -- No exclamation mark stands in the name, and one begins what is behind it
  have hpass : ∀ c ∈ name.toList, decide (c ≠ '!') = true := by
    intro c hc
    have hpart := List.all_eq_true.1 hname.all c hc
    apply decide_eq_true
    intro heq
    rw [heq] at hpart
    exact absurd hpart (by decide)
  have hstop : behind.takeWhile (· ≠ '!') = [] ∧ behind.dropWhile (· ≠ '!') = behind := by
    cases behind with
    | nil => simp
    | cons c rest =>
      have hc : c = '!' := by simpa using hbehind
      simp [hc]
  rw [hkey, List.takeWhile_append_of_pos hpass, List.dropWhile_append_of_pos hpass, hstop.1,
    hstop.2, List.append_nil, String.ofList_toList]
  exact ⟨rfl, rfl⟩

/-- Helper: a type reference is not empty. -/
private theorem IsTypeReference.ne_nil {type : String} (h : IsTypeReference type) :
    type.toList ≠ [] := by
  obtain ⟨hderives, hspan⟩ := h
  rw [← hspan]
  obtain ⟨hspells, -⟩ := spells_scan type.toList
  change Lexeme.Spells (scanText type).lexemes _ at hspells
  cases hrow : (scanText type).lexemes with
  | nil => exact absurd hrow hderives.type_ne_nil
  | cons l rest =>
    rw [hrow] at hspells
    obtain ⟨-, ⟨c, more, htext, -⟩, -⟩ := hspells
    simp [Lexeme.spanText, htext]

/-- A key of a documented form has a name, and the type that is written in it. The name ends at the
first exclamation mark; what a type has of them stands behind that. -/
theorem DocumentedKey.read {key : String} (h : DocumentedKey key) :
    IsName (VariableKey.read key).name.toList ∧
      ∀ type, (VariableKey.read key).modifier = .typed type → IsTypeReference type := by
  unfold VariableKey.read
  dsimp only
  cases h with
  | bare hname =>
    obtain ⟨htake, hdrop⟩ := @split_key key key [] hname (List.append_nil _).symm rfl
    rw [htake, hdrop]
    exact ⟨hname, fun _ heq => by cases heq⟩
  | @nonNull name hname =>
    have hkey : (name ++ "!").toList = name.toList ++ ['!'] := by simp
    obtain ⟨htake, hdrop⟩ := split_key hname hkey rfl
    rw [htake, hdrop]
    exact ⟨hname, fun _ heq => by cases heq⟩
  | @typed name type hname htype =>
    -- The type is not empty, so that it is told from a bare exclamation mark
    obtain ⟨c, rest, hchars⟩ := List.exists_cons_of_ne_nil htype.ne_nil
    have hkey : (name ++ "!" ++ type).toList = name.toList ++ '!' :: c :: rest := by simp [hchars]
    obtain ⟨htake, hdrop⟩ := split_key hname hkey rfl
    rw [htake, hdrop]
    refine ⟨hname, fun _ heq => ?_⟩
    cases heq
    rw [← hchars, String.ofList_toList]
    exact htype

/-! ## §2 Types -/

/-- Whether a text can be printed as a type. -/
def IsType (text : String) : Prop :=
  ∃ row, Derives .typeReference row ∧ Written row text

theorem IsTypeReference.isType {text : String} (h : IsTypeReference text) : IsType text := by
  obtain ⟨hderives, hspan⟩ := h
  obtain ⟨hspells, -⟩ := spells_scan text.toList
  refine ⟨_, hderives, hspan.symm, readBack_of_spells hspells fun l hl => ?_⟩
  -- No string stands in a type, so that nothing is left open at its end
  have hkind := (hderives.type_kind l hl).2.2
  exact hspells.whole_of_kind l hl hkind

theorem IsName.isType {name : String} (h : IsName name.toList) : IsType name := by
  refine ⟨[⟨[], .name, name.toList⟩], .namedType rfl, by simp [Lexeme.spanText], ?_⟩
  exact readBack_singleton isGap_nil (IsName.whole h rfl)

theorem IsType.nonNull {text : String} (h : IsType text) : IsType (text ++ "!") := by
  obtain ⟨row, hderives, hwritten⟩ := h
  have hmark : (⟨[], .punctuator '!', ['!']⟩ : Lexeme).Whole := whole_mark (by decide)
  refine ⟨row ++ [⟨[], .punctuator '!', ['!']⟩], .nonNullType hderives rfl, ?_, ?_⟩
  · cases row with
    | nil => exact absurd rfl hderives.type_ne_nil
    | cons l rest => simp [hwritten.text, Lexeme.spanText]
  · exact hwritten.readBack.append (readBack_singleton isGap_nil hmark) rfl

theorem IsType.list {text : String} (h : IsType text) : IsType ("[" ++ text ++ "]") := by
  obtain ⟨row, hderives, hwritten⟩ := h
  have hopener : (⟨[], .punctuator '[', ['[']⟩ : Lexeme).Whole := whole_mark (by decide)
  have hcloser : (⟨[], .punctuator ']', [']']⟩ : Lexeme).Whole := whole_mark (by decide)
  have hitem := hderives.type_regap []
  have hchars := charsOf_regap hderives.type_ne_nil []
  refine ⟨⟨[], .punctuator '[', ['[']⟩ :: Lexeme.regap [] row ++ [⟨[], .punctuator ']', [']']⟩],
    .listType rfl hitem rfl, ?_, ?_⟩
  · simp [hwritten.text, Lexeme.spanText, hchars]
  · apply ReadBack.mark rfl (by decide) isGap_nil hopener
    exact (hwritten.readBack.regap isGap_nil).append (readBack_singleton isGap_nil hcloser) rfl

theorem isType_of_scalarType? {value : Json} {text : String} (h : scalarType? value = some text) :
    IsType text := by
  have hnames : ∀ name ∈ ["Boolean", "Int", "Float", "String"], IsType name := by
    intro name hname
    simp only [List.mem_cons, List.not_mem_nil, or_false] at hname
    rcases hname with rfl | rfl | rfl | rfl
    · exact IsName.isType ⟨'B', "oolean".toList, rfl, by decide, by decide⟩
    · exact IsName.isType ⟨'I', "nt".toList, rfl, by decide, by decide⟩
    · exact IsName.isType ⟨'F', "loat".toList, rfl, by decide, by decide⟩
    · exact IsName.isType ⟨'S', "tring".toList, rfl, by decide, by decide⟩
  -- Arrays, objects and null have no type of their own
  apply hnames text
  cases value with
  | bool b =>
    cases h
    simp
  | number n =>
    cases h
    split <;> simp
  | string s =>
    cases h
    simp
  | _ => cases h

theorem isType_id : IsType "ID!" := by
  have hname : IsName "ID".toList := ⟨'I', "D".toList, rfl, by decide, by decide⟩
  exact hname.isType.nonNull

theorem isType_of_inferType? {name : String} {value : Json} {text : String}
    (h : inferType? name (some value) = some text) : IsType text := by
  have hscalar : ∀ {value : Json}, (scalarType? value).map (· ++ "!") = some text →
      IsType text := by
    intro value hmap
    obtain ⟨item, hitem, rfl⟩ := Option.map_eq_some_iff.1 hmap
    exact (isType_of_scalarType? hitem).nonNull
  unfold inferType? at h
  split at h
  · rename_i hnone
    cases hnone
  · cases h
  · -- An array has the type of its first item in brackets
    obtain ⟨item, hitem, rfl⟩ := Option.map_eq_some_iff.1 h
    have htype := (isType_of_scalarType? hitem).nonNull.list.nonNull
    have hsame : "[" ++ item ++ "!]!" = "[" ++ (item ++ "!") ++ "]" ++ "!" := by
      rw [← String.toList_inj]
      simp
    rw [hsame]
    exact htype
  · -- Under a name that ends like one, a string or a number is an identifier
    split at h
    · split at h
      · cases h
        exact isType_id
      · exact hscalar h
    · split at h
      · cases h
        exact isType_id
      · exact hscalar h
    · exact hscalar h

/-! ## §3 What is inferred -/

/-- What is inferred from documented keys can be printed, and has no default. The names that are
referenced have to be names, which those of a scanned text are. -/
theorem printable_of_infer {referenced : List String} {values : JsonObject}
    (hreferenced : ∀ name ∈ referenced, IsName name.toList)
    (hkeys : ∀ pair ∈ values, DocumentedKey pair.1) :
    ∀ d ∈ (infer referenced values).declarations, d.Printable ∧ d.defaultText = none := by
  have hprintable : ∀ {name type : String}, IsName name.toList → IsType type →
      Declaration.Printable ⟨name, type, none⟩ ∧ (none : Option String) = none :=
    fun hname htype => ⟨⟨hname, htype, by simp⟩, rfl⟩
  intro d hd
  obtain ⟨finding, hfinding, hdeclared⟩ := List.mem_filterMap.1 hd
  obtain ⟨pair, hpair, rfl⟩ | ⟨name, hmem, rfl⟩ := mem_inferFindings hfinding
  · -- A variable that is given: its type is written in its key, or inferred from its value
    obtain ⟨hname, htyped⟩ := (hkeys pair hpair).read
    rw [Finding.ofVariable] at hdeclared
    cases hdeclaration : (VariableKey.read pair.1).declaration? (some pair.2) with
    | none =>
      rw [hdeclaration] at hdeclared
      cases hdeclared
    | some found =>
      rw [hdeclaration] at hdeclared
      cases hdeclared
      unfold VariableKey.declaration? at hdeclaration
      split at hdeclaration
      · rename_i type hmodifier
        cases hdeclaration
        exact hprintable hname (htyped type hmodifier).isType.nonNull
      · obtain ⟨type, htype, rfl⟩ := Option.map_eq_some_iff.1 hdeclaration
        exact hprintable hname (isType_of_inferType? htype)
  · -- A variable that is only referenced: an identifier, if it is called like one
    have hname := hreferenced name hmem
    unfold Finding.ofReference at hdeclared
    split at hdeclared
    · cases hdeclared
      exact hprintable hname isType_id
    · cases hdeclared

end QueryWeave
