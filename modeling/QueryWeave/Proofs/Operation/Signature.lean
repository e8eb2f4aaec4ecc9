import QueryWeave.Operation.Declaration
import QueryWeave.Proofs.Operation.Grammar

/-!
# Reading Signatures

How the declarations of a signature are read back. A type ends where its brackets are closed and a
default, a directive or another definition begins; a default ends in front of a directive or another
definition, because a constant holds neither at signs nor variables.

- `readList_definition`: the first definition of a row.
-/

namespace QueryWeave

/-! ## §1 What phrases hold -/

/-- The kinds of lexeme that values are made of. -/
def LexemeKind.inValue (constant : Bool) : LexemeKind → Bool
  | .name | .other | .stringValue => true
  | .variable => !constant
  | .punctuator mark => mark ∈ ['[', ']', '{', '}', ':']
  | .ellipsis => false

/-- The kinds of lexeme that a phrase of constants or types is made of. Constants hold neither
variables nor at signs, and types no equals sign: that is how reading tells where they end. -/
def Phrase.holds (kind : LexemeKind) : Phrase → Bool
  | .value constant | .values constant | .members constant => kind.inValue constant
  | .arguments constant => kind.inValue constant || kind ∈ [.punctuator '(', .punctuator ')']
  | .directives constant =>
    kind.inValue constant || kind ∈ [.punctuator '(', .punctuator ')', .punctuator '@']
  | .typeReference =>
    kind ∈ [.name, .punctuator '[', .punctuator ']', .punctuator '!']
  | _ => true

/-- Helper: what holds between brackets and of the brackets holds throughout. -/
private theorem holds_enclosed {p : Lexeme → Prop} {opener closer : Lexeme} {row : List Lexeme}
    (hopener : p opener) (hrow : ∀ l ∈ row, p l) (hcloser : p closer) :
    ∀ l ∈ opener :: row ++ [closer], p l := by
  intro l hl
  rcases List.mem_append.1 hl with hl | hl
  · rcases List.mem_cons.1 hl with rfl | hl
    · exact hopener
    · exact hrow l hl
  · rw [List.mem_singleton] at hl
    exact hl ▸ hcloser

theorem Derives.holds {phrase : Phrase} {row : List Lexeme} (h : Derives phrase row) :
    ∀ l ∈ row, phrase.holds l.kind = true := by
  induction h with
  | literal h => rcases h with h | h | h <;> simp [Phrase.holds, LexemeKind.inValue, h]
  | variableUse h => simp [Phrase.holds, LexemeKind.inValue, h]
  | list hopener _ hcloser ih =>
    exact holds_enclosed (by rw [Lexeme.isMark_iff.1 hopener]; rfl) ih
      (by rw [Lexeme.isMark_iff.1 hcloser]; rfl)
  | object hopener _ hcloser ih =>
    exact holds_enclosed (by rw [Lexeme.isMark_iff.1 hopener]; rfl) ih
      (by rw [Lexeme.isMark_iff.1 hcloser]; rfl)
  | valuesCons _ _ ihItem ihItems => exact List.forall_mem_append.2 ⟨ihItem, ihItems⟩
  | membersCons hname hcolon _ _ ihItem ihItems =>
    refine List.forall_mem_append.2 ⟨?_, ihItems⟩
    refine List.forall_mem_cons.2 ⟨by rw [hname]; rfl, ?_⟩
    exact List.forall_mem_cons.2 ⟨by rw [Lexeme.isMark_iff.1 hcolon]; rfl, ihItem⟩
  | arguments hopener _ _ hcloser ih =>
    -- Arguments hold what their members hold, and parentheses
    refine holds_enclosed ?_ (fun l hl => ?_) ?_
    · rw [Lexeme.isMark_iff.1 hopener]
      simp [Phrase.holds]
    · have hl := ih l hl
      simp only [Phrase.holds] at hl
      simp [Phrase.holds, hl]
    · rw [Lexeme.isMark_iff.1 hcloser]
      simp [Phrase.holds]
  | directivesCons hsign hname _ _ ihArguments ihOthers =>
    refine List.forall_mem_append.2 ⟨?_, ihOthers⟩
    refine List.forall_mem_cons.2 ⟨?_, List.forall_mem_cons.2 ⟨?_, fun l hl => ?_⟩⟩
    · rw [Lexeme.isMark_iff.1 hsign]
      simp [Phrase.holds]
    · rw [hname]
      rfl
    -- And directives hold at signs besides
    have hl := ihArguments l hl
    simp only [Phrase.holds, Bool.or_eq_true, List.mem_cons, List.not_mem_nil, or_false,
      decide_eq_true_eq] at hl ⊢
    rcases hl with hl | hl | hl
    · exact .inl hl
    · exact .inr (.inl hl)
    · exact .inr (.inr (.inl hl))
  | namedType hname => simp [Phrase.holds, hname]
  | listType hopener _ hcloser ih =>
    apply holds_enclosed _ ih
    · rw [Lexeme.isMark_iff.1 hcloser]
      simp [Phrase.holds]
    · rw [Lexeme.isMark_iff.1 hopener]
      simp [Phrase.holds]
  | nonNullType _ hmark ih =>
    refine List.forall_mem_append.2 ⟨ih, ?_⟩
    simp [Phrase.holds, Lexeme.isMark_iff.1 hmark]
  | _ =>
    -- Empty rows, and phrases of which nothing is said
    intro l hl
    first | rfl | exact absurd hl (by simp)

/-- Among values, directives and types stands no ellipsis. -/
theorem Derives.kind_ne_ellipsis {phrase : Phrase} {row : List Lexeme} (h : Derives phrase row)
    (hphrase : phrase.holds .ellipsis = false) : ∀ l ∈ row, l.kind ≠ .ellipsis := by
  intro l hl hkind
  have hholds := h.holds l hl
  rw [hkind, hphrase] at hholds
  cases hholds

/-- No variable stands in a constant value. -/
theorem Derives.value_isVariable {row : List Lexeme} (h : Derives (.value true) row) :
    ∀ l ∈ row, l.isVariable = false ∧ l.isMark '@' = false := by
  intro l hl
  have hkind := h.holds l hl
  simp only [Phrase.holds, LexemeKind.inValue] at hkind
  split at hkind <;> simp_all [Lexeme.isVariable, Lexeme.isMark]
  rintro rfl
  simp_all

theorem Derives.directives_isVariable {row : List Lexeme} (h : Derives (.directives true) row) :
    ∀ l ∈ row, l.isVariable = false := by
  intro l hl
  have hkind := h.holds l hl
  by_contra hnot
  have hvariable := Lexeme.isVariable_iff.1 (Bool.of_not_eq_false hnot)
  simp [Phrase.holds, LexemeKind.inValue, hvariable] at hkind

theorem Derives.type_kind {row : List Lexeme} (h : Derives .typeReference row) :
    ∀ l ∈ row, l.kind ≠ .variable ∧ l.kind ≠ .other ∧ l.kind ≠ .stringValue := by
  intro l hl
  have hkind := h.holds l hl
  simp only [Phrase.holds, List.mem_cons, List.not_mem_nil, or_false, decide_eq_true_eq] at hkind
  rcases hkind with hkind | hkind | hkind | hkind <;> simp [hkind]

/-! ## §2 Reading one definition -/

namespace Declaration

/-- Where a type or a default ends: at a directive, at another definition, or at the end. -/
def AtEnd (row : List Lexeme) : Prop :=
  ∀ l ∈ row.head?, l.isVariable = true ∨ l.isMark '@' = true

/-- Directives end a type or a default as well as what stands behind them does. -/
theorem atEnd_directives {directives rest : List Lexeme}
    (h : Derives (.directives true) directives) (hrest : AtEnd rest) :
    AtEnd (directives ++ rest) := by
  cases h with
  | directivesNil => exact hrest
  | directivesCons hsign =>
    rintro l ⟨⟩
    exact .inr hsign

/-- Another definition ends the one in front of it. -/
theorem atEnd_definitions {row : List Lexeme} (h : Derives .definitions row) : AtEnd row := by
  cases h with
  | definitionsNil => exact fun l hl => by cases hl
  | definitionsCons hdefined =>
    rintro l ⟨⟩
    exact .inl (Lexeme.isVariable_iff.2 hdefined)

/-- A type is measured as a whole, whatever its brackets stand in. The measure goes on behind the
type with the depth that it had in front. -/
theorem typeLength_append {type : List Lexeme} (h : Derives .typeReference type) (depth : Nat)
    (rest : List Lexeme) :
    typeLength depth (type ++ rest) = type.length + typeLength depth rest := by
  generalize hphrase : Phrase.typeReference = phrase at h
  -- The depth grows inside brackets, and is what it was behind them
  induction h generalizing depth rest with
  | @namedType name hname =>
    simp [typeLength, Lexeme.isVariable, Lexeme.isMark, hname, Nat.add_comm]
  | @listType opener closer item hopener _ hcloser ih =>
    have hopens := Lexeme.isMark_iff.1 hopener
    have hcloses := Lexeme.isMark_iff.1 hcloser
    have hinner := ih (depth + 1) (closer :: rest) rfl
    simp [typeLength, Lexeme.isVariable, Lexeme.isMark, hopens, hcloses, hinner]
    omega
  | @nonNullType item mark _ hmark ih =>
    have hkind := Lexeme.isMark_iff.1 hmark
    have hinner := ih depth (mark :: rest) rfl
    simp [typeLength, Lexeme.isVariable, Lexeme.isMark, hkind, hinner]
    omega
  | _ => cases hphrase

theorem typeLength_end {row : List Lexeme}
    (h : AtEnd row ∨ ∃ sign rest, row = sign :: rest ∧ sign.isMark '=' = true) :
    typeLength 0 row = 0 := by
  cases row with
  | nil => rfl
  | cons l rest =>
    rcases h with h | ⟨sign, rest', heq, hsign⟩
    · rcases h l rfl with hl | hl <;> simp [typeLength, hl]
    · cases heq
      simp [typeLength, hsign]

/-- A default is measured as a whole. -/
theorem defaultLength_append {value rest : List Lexeme} (h : Derives (.value true) value)
    (hend : AtEnd rest) : defaultLength (value ++ rest) = value.length := by
  have hpass : ∀ l ∈ value, (!l.isVariable && !l.isMark '@') = true := fun l hl => by
    simp [h.value_isVariable l hl]
  -- The measure passes the whole value, and stops at what ends it
  unfold defaultLength
  rw [List.takeWhile_append_of_pos hpass]
  cases rest with
  | nil => simp
  | cons l more => rcases hend l rfl with hl | hl <;> simp [hl]

/-- What holds no variable is passed over. -/
theorem readList_append {row rest : List Lexeme} (h : ∀ l ∈ row, l.isVariable = false) :
    readList (row ++ rest) = readList rest := by
  induction row with
  | nil => rfl
  | cons l more ih =>
    have hl := h l List.mem_cons_self
    rw [List.cons_append, readList]
    simp only [hl, Bool.false_eq_true, if_false]
    exact ih fun m hm => h m (List.mem_cons_of_mem _ hm)

/-- An entry, with its type cut off from what follows. A default is read if an equals sign follows,
and the list goes on behind it. -/
theorem readList_variable {defined : Lexeme} {rest type after : List Lexeme}
    (hdefined : defined.isVariable = true) (hrow : skipColon rest = type ++ after)
    (hlength : typeLength 0 (type ++ after) = type.length) :
    readList (defined :: rest) =
      if after.head?.any (Lexeme.isMark '=') then
        ⟨defined.variableName, partText type,
          some (partText (after.tail.take (defaultLength after.tail)))⟩ ::
            readList (after.tail.drop (defaultLength after.tail))
      else ⟨defined.variableName, partText type, none⟩ :: readList after := by
  rw [readList]
  simp only [hdefined, if_true]
  split
  · -- Nothing stands behind the type
    rename_i hnil
    rw [hrow, hlength, List.drop_left] at hnil
    subst hnil
    rw [List.append_nil] at hrow hlength
    simp [hrow, hlength, readList]
  · rename_i next more hnext
    rw [hrow, hlength, List.drop_left] at hnext
    subst hnext
    cases hsign : next.isMark '=' <;> simp [hrow, hlength, hsign]

/-- Helper: behind a type, the definition is over or has a default. -/
private theorem readList_type {defined colon : Lexeme} {type rest : List Lexeme}
    (hdefined : defined.isVariable = true) (hcolon : colon.isMark ':' = true)
    (htype : Derives .typeReference type) (hrest : typeLength 0 rest = 0) :
    readList (defined :: colon :: (type ++ rest)) =
      if rest.head?.any (Lexeme.isMark '=') then
        ⟨defined.variableName, partText type,
          some (partText (rest.tail.take (defaultLength rest.tail)))⟩ ::
            readList (rest.tail.drop (defaultLength rest.tail))
      else ⟨defined.variableName, partText type, none⟩ :: readList rest := by
  have hrow : skipColon (colon :: (type ++ rest)) = type ++ rest := by
    simp [skipColon, hcolon]
  -- What follows adds nothing to the type, because it ends a type at depth zero
  have hlength : typeLength 0 (type ++ rest) = type.length := by
    rw [typeLength_append htype, hrest, Nat.add_zero]
  exact readList_variable hdefined hrow hlength

/-- The first definition of a row, and the definitions behind it. What stands behind the type and
the default has to end them: a directive, another definition, or nothing. -/
theorem readList_definition {defined colon : Lexeme} {type defaultRow rest : List Lexeme}
    (hdefined : defined.isVariable = true) (hcolon : colon.isMark ':' = true)
    (htype : Derives .typeReference type) (hdefault : Derives .default defaultRow)
    (hend : AtEnd rest) :
    readList (defined :: colon :: (type ++ (defaultRow ++ rest))) =
      ⟨defined.variableName, partText type,
        if defaultRow = [] then none else some (partText defaultRow.tail)⟩ :: readList rest := by
  cases hdefault with
  | noDefault =>
    -- What ends a definition is no equals sign
    have hnot : rest.head?.any (Lexeme.isMark '=') = false := by
      cases rest with
      | nil => rfl
      | cons next more =>
        rcases hend next rfl with hl | hl
        · have hkind := Lexeme.isVariable_iff.1 hl
          simp [Lexeme.isMark, hkind]
        · simp [Lexeme.isMark, Lexeme.isMark_iff.1 hl]
    rw [List.nil_append, readList_type hdefined hcolon htype (typeLength_end (.inl hend)), hnot]
    rfl
  | @default sign value hsign hvalue =>
    have hrest := typeLength_end (.inr ⟨sign, value ++ rest, rfl, hsign⟩)
    rw [List.cons_append, readList_type hdefined hcolon htype hrest]
    simp [hsign, defaultLength_append hvalue hend]

end Declaration

end QueryWeave
