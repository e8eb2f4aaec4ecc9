import QueryWeave.Operation.Compile
import QueryWeave.Proofs.Lexeme.Written
import QueryWeave.Proofs.Operation.Signature

/-!
# Printing Declarations

Declarations are printed into signatures and read back from them. What makes this a round trip is
that names are names, types are type references and defaults are constants, each of which ends where
it is said to.

- `Declaration.Printable`: declarations that can be printed.
- `exists_printed`: printed declarations are read back as they were.
- `printable_of_definitions`: declarations read from a well-formed signature can be printed.
-/

namespace QueryWeave

/-! ## §1 Printable declarations -/

/-- A declaration that is read back as it is printed: its name is a name, and its type and default
are texts of whole lexemes that the grammar derives. -/
structure Declaration.Printable (d : Declaration) : Prop where
  name : IsName d.name.toList
  type : ∃ row, Derives .typeReference row ∧ Written row d.typeText
  default : ∀ text ∈ d.defaultText, ∃ row, Derives (.value true) row ∧ Written row text

theorem Derives.type_regap {row : List Lexeme} (h : Derives .typeReference row) (gap : List Char) :
    Derives .typeReference (Lexeme.regap gap row) := by
  generalize hphrase : Phrase.typeReference = phrase at h
  induction h with
  | namedType hname => exact .namedType hname
  | listType hopener hitem hcloser => exact .listType hopener hitem hcloser
  | @nonNullType item mark hitem hmark ih =>
    have hregap : Lexeme.regap gap (item ++ [mark]) = Lexeme.regap gap item ++ [mark] := by
      -- The new gap goes in front of the first lexeme, so the mark behind the type keeps its own
      cases item with
      | nil => exact absurd rfl hitem.type_ne_nil
      | cons l rest => rfl
    rw [hregap]
    exact .nonNullType (ih rfl) hmark
  | _ => cases hphrase

theorem Derives.value_regap {constant : Bool} {row : List Lexeme}
    (h : Derives (.value constant) row) (gap : List Char) :
    Derives (.value constant) (Lexeme.regap gap row) := by
  cases h with
  | literal h => exact .literal h
  | variableUse h => exact .variableUse h
  | list hopener hitems hcloser => exact .list hopener hitems hcloser
  | object hopener hitems hcloser => exact .object hopener hitems hcloser

/-! ## §2 One declaration

A declaration is printed in parts, with a colon and a blank between, and each part is read back by
itself. What separates the parts is in the layout, and does not depend on them. -/

/-- What printed declarations are read as. The row is read back in front of anything that separates,
it is orderly, and its declarations are those that were printed, also with more definitions
behind. -/
structure Printed (ds : List Declaration) (gap : List Char) (row : List Lexeme) : Prop where
  chars : Lexeme.charsOf row = gap ++ (Declaration.listText ds).toList
  readBack : ReadBack row
  orderly : Orderly row
  head : row.head?.any Lexeme.isVariable = true
  reads : ∀ rest, rest.head?.all Lexeme.isVariable = true →
    Declaration.readList (row ++ rest) = ds ++ Declaration.readList rest
  numbers : (∀ d ∈ ds, d.defaultText = none) → ∀ l ∈ row, l.kind ≠ .other
  noEllipsis : ∀ l ∈ row, l.kind ≠ .ellipsis

/-- Helper: a mark in front of a row, between gaps. -/
private theorem readBack_cons_mark {gap : List Char} (hgap : IsGap gap) {mark : Char}
    (hmark : mark ≠ '.' ∧ mark ≠ '$')
    (hwhole : beginsLexeme mark = true ∧ mark ≠ '"' ∧ isNameStart mark = false ∧
      isNumberStart mark = false) {row : List Lexeme} (h : ReadBack row) :
    ReadBack (⟨gap, .punctuator mark, [mark]⟩ :: row) :=
  ReadBack.mark rfl hmark hgap (whole_mark hwhole) h

/-- Helper: the default of a declaration behind its type. -/
private theorem exists_default {d : Declaration} (h : d.Printable) :
    ∃ row, Derives .default row ∧ ReadBack row ∧
      (Lexeme.charsOf row).head?.all Lexeme.separates = true ∧
      (if row = [] then none else some (Declaration.partText row.tail)) = d.defaultText ∧
      d.text.toList = '$' :: d.name.toList ++ [':', ' '] ++ d.typeText.toList ++
        Lexeme.charsOf row := by
  cases hdefault : d.defaultText with
  | none =>
    refine ⟨[], .noDefault, readBack_nil, rfl, rfl, ?_⟩
    simp [Declaration.text, hdefault]
  | some text =>
    -- An equals sign, and the value with a blank in front
    obtain ⟨value, hvalue, hwritten⟩ := h.default text hdefault
    have hblank : IsGap [' '] := rfl
    have hsome := hvalue.value_ne_nil
    refine ⟨⟨[' '], .punctuator '=', ['=']⟩ :: Lexeme.regap [' '] value,
      .default rfl (hvalue.value_regap _), ?_, rfl, ?_, ?_⟩
    · exact readBack_cons_mark hblank (by decide) (by decide) (hwritten.readBack.regap hblank)
    · simp [Declaration.partText, ← hwritten.text]
    · simp [Declaration.text, hdefault, charsOf_regap hsome, ← hwritten.text]

theorem exists_printed_one {d : Declaration} (h : d.Printable) {gap : List Char}
    (hgap : IsGap gap) :
    ∃ row, Printed [d] gap row := by
  obtain ⟨type, htype, hwritten⟩ := h.type
  obtain ⟨defaultRow, hdefault, hreadBack, hseam, hdefaultText, htext⟩ := exists_default h
  have hblank : IsGap [' '] := rfl
  have htypeRow := htype.type_regap [' ']
  have hsome := htype.type_ne_nil
  have htypeChars := charsOf_regap hsome [' ']
  have hdefined : (⟨gap, .variable, '$' :: d.name.toList⟩ : Lexeme).Whole :=
    h.name.whole_variable rfl rfl
  -- The row: a variable, a colon, the type and the default
  have hbehind : ReadBack (⟨[], .punctuator ':', [':']⟩ ::
      (Lexeme.regap [' '] type ++ defaultRow)) :=
    readBack_cons_mark isGap_nil (by decide) (by decide)
      ((hwritten.readBack.regap hblank).append hreadBack hseam)
  refine ⟨[⟨gap, .variable, '$' :: d.name.toList⟩] ++ ⟨[], .punctuator ':', [':']⟩ ::
    (Lexeme.regap [' '] type ++ defaultRow), ?_, ?_, ?_, rfl, ?_, ?_, ?_⟩
  · simp [Declaration.listText, htext, htypeChars, ← hwritten.text]
  · exact (readBack_singleton hgap hdefined).append hbehind rfl
  · have hinner := htypeRow.orderly.append hdefault.orderly
    have hcolon : Orderly (⟨[], .punctuator ':', [':']⟩ ::
        (Lexeme.regap [' '] type ++ defaultRow)) :=
      hinner.announced rfl rfl (by simp [htypeRow.type_ne_nil])
    exact (Lexeme.plain_of_kind rfl (by simp)).cons hcolon
  · -- Another definition ends this one
    intro rest hrest
    have hend : Declaration.AtEnd rest := fun l hl => by
      cases hl' : rest.head? <;> simp_all
    have hread := @Declaration.readList_definition ⟨gap, .variable, '$' :: d.name.toList⟩
      ⟨[], .punctuator ':', [':']⟩ _ _ _ rfl rfl htypeRow hdefault hend
    simp only [List.cons_append, List.nil_append, List.append_assoc]
    rw [hread, hdefaultText]
    simp [Lexeme.variableName, Declaration.partText, ← hwritten.text]
  · -- Numbers stand in defaults only
    intro hnone l hl
    have hempty : defaultRow = [] := by
      by_contra hne
      rw [if_neg hne, hnone d List.mem_cons_self] at hdefaultText
      cases hdefaultText
    subst hempty
    simp only [List.append_nil, List.cons_append, List.nil_append, List.mem_cons] at hl
    rcases hl with rfl | rfl | hl
    · simp
    · simp
    · exact (htypeRow.type_kind l hl).2.1
  · have hdefaultDots : ∀ l ∈ defaultRow, l.kind ≠ .ellipsis := by
      cases hdefault with
      | noDefault => simp
      | default hsign hvalue =>
        refine List.forall_mem_cons.2 ⟨?_, hvalue.kind_ne_ellipsis rfl⟩
        simp [Lexeme.isMark_iff.1 hsign]
    have htypeDots := htypeRow.kind_ne_ellipsis rfl
    refine List.forall_mem_cons.2 ⟨by simp, List.forall_mem_cons.2 ⟨by simp, ?_⟩⟩
    exact List.forall_mem_append.2 ⟨htypeDots, hdefaultDots⟩

/-! ## §3 Lists of declarations -/

/-- **Printed declarations are read back as they were**, whatever separates them from what
follows. -/
theorem exists_printed {ds : List Declaration} (hsome : ds ≠ []) (h : ∀ d ∈ ds, d.Printable)
    {gap : List Char} (hgap : IsGap gap) : ∃ row, Printed ds gap row := by
  induction ds generalizing gap with
  | nil => exact absurd rfl hsome
  | cons d rest ih =>
    obtain ⟨first, hfirst⟩ := exists_printed_one (h d List.mem_cons_self) hgap
    cases rest with
    | nil => exact ⟨first, hfirst⟩
    | cons e more =>
      -- The comma is ignored: it goes into the gap in front of the other declarations
      have hcomma : IsGap [',', ' '] := rfl
      obtain ⟨others, hothers⟩ := ih (by simp) (fun e he => h e (List.mem_cons_of_mem _ he)) hcomma
      have hchars := hothers.chars
      refine ⟨first ++ others, ?_, ?_, hfirst.orderly.append hothers.orderly, ?_, ?_, ?_,
        List.forall_mem_append.2 ⟨hfirst.noEllipsis, hothers.noEllipsis⟩⟩
      · have hone := hfirst.chars
        simp only [Declaration.listText, List.map_cons, List.map_nil, String.intercalate_singleton,
          String.intercalate_cons_cons] at hone hchars ⊢
        rw [Lexeme.charsOf_append, hone, hchars]
        simp
      · apply hfirst.readBack.append hothers.readBack
        rw [hchars]
        rfl
      · cases first with
        | nil => cases hfirst.head
        | cons l later => exact hfirst.head
      · intro behind hbehind
        have hvariable : (others ++ behind).head?.all Lexeme.isVariable = true := by
          cases others with
          | nil => cases hothers.head
          | cons l later => exact hothers.head
        rw [List.append_assoc, hfirst.reads _ hvariable, hothers.reads _ hbehind]
        simp
      · intro hnone l hl
        rcases List.mem_append.1 hl with hl | hl
        · exact hfirst.numbers (fun e he => hnone e (by simp_all)) l hl
        · exact hothers.numbers (fun e he => hnone e (List.mem_cons_of_mem _ he)) l hl

/-! ## §4 Declarations of a well-formed signature -/

/-- Helper: a part of a row that is spelled and whole is written as its text. -/
private theorem written_partText {row : List Lexeme} {following : List Char}
    (h : Lexeme.Spells row following) (hwhole : ∀ l ∈ row, l.Whole) :
    Written row (Declaration.partText row) :=
  ⟨by simp [Declaration.partText], readBack_of_spells h hwhole⟩

/-- Declarations read from definitions can be printed. The texts are slices of the source, and
scanning a slice by itself gives the lexemes that it was cut from. -/
theorem printable_of_definitions {row : List Lexeme} (h : Derives .definitions row)
    {following : List Char} (hspells : Lexeme.Spells row following)
    (hwhole : ∀ l ∈ row, l.Whole) : ∀ d ∈ Declaration.readList row, d.Printable := by
  generalize hphrase : Phrase.definitions = phrase at h
  induction h with
  | definitionsNil => simp [Declaration.readList]
  | @definitionsCons defined colon type defaultRow directives others hdefined hcolon htype hdefault
      hdirectives hothers _ _ _ ih =>
    have hvariable := Lexeme.isVariable_iff.2 hdefined
    have hend := Declaration.atEnd_directives hdirectives (Declaration.atEnd_definitions hothers)
    rw [Declaration.readList_definition hvariable hcolon htype hdefault hend,
      Declaration.readList_append hdirectives.directives_isVariable]
    -- The type, the default and the other definitions are spelled where they stand
    obtain ⟨-, -, -, -, hbehind⟩ := hspells
    obtain ⟨htypeSpells, hbehind⟩ := Lexeme.spells_append.1 hbehind
    obtain ⟨hdefaultSpells, hbehind⟩ := Lexeme.spells_append.1 hbehind
    obtain ⟨-, hothersSpells⟩ := Lexeme.spells_append.1 hbehind
    simp only [List.mem_cons, List.mem_append] at hwhole
    intro d hd
    rcases List.mem_cons.1 hd with rfl | hd
    · refine ⟨?_, ⟨type, htype, ?_⟩, ?_⟩
      · obtain ⟨name, htext, hname⟩ := (hwhole defined (.inl rfl)).isName_drop hdefined
        simpa [Lexeme.variableName, htext] using hname
      · exact written_partText htypeSpells fun l hl => hwhole l (.inr (.inr (.inl hl)))
      · intro text htext
        cases hdefault with
        | noDefault => cases htext
        | @default sign value hsign hvalue =>
          cases htext
          refine ⟨value, hvalue, written_partText hdefaultSpells.2.2 fun l hl => ?_⟩
          exact hwhole l (.inr (.inr (.inr (.inl (List.mem_cons_of_mem _ hl)))))
    · exact ih hothersSpells (fun l hl => hwhole l (by simp [hl])) rfl d hd
  | _ => cases hphrase

end QueryWeave
