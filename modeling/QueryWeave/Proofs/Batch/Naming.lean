import QueryWeave.Batch.Alias
import QueryWeave.Batch.Selection

/-!
# Names of an Entry

Aliases are of one length, because a code is always written with four digits. A name that carries
an alias in front therefore tells both parts apart: names of entries with different aliases never
coincide, whatever stands behind the alias.
-/

namespace QueryWeave

theorem length_fourDigits (code : Nat) : (fourDigits code).toList.length = 4 := by
  simp [fourDigits]

theorem length_aliasOfCode (code : Nat) : (aliasOfCode code).toList.length = 9 := by
  rw [aliasOfCode, String.toList_append, List.length_append, length_fourDigits]
  rfl

/-- A name of an entry tells the alias from what stands behind it. -/
theorem entryName_inj {first second : Nat} {name other : String}
    (h : entryName (aliasOfCode first) name = entryName (aliasOfCode second) other) :
    aliasOfCode first = aliasOfCode second ∧ name = other := by
  have hchars := congrArg String.toList h
  simp only [entryName, String.toList_append, List.append_assoc] at hchars
  have hlength : (aliasOfCode first).toList.length = (aliasOfCode second).toList.length := by
    rw [length_aliasOfCode, length_aliasOfCode]
  obtain ⟨halias, hrest⟩ := List.append_inj hchars hlength
  exact ⟨String.toList_inj.1 halias, String.toList_inj.1 (List.append_cancel_left hrest)⟩

theorem entryName_cancel {aliasName name other : String}
    (h : entryName aliasName name = entryName aliasName other) : name = other := by
  have hchars := congrArg String.toList h
  simp only [entryName, String.toList_append] at hchars
  exact String.toList_inj.1 (List.append_cancel_left hchars)

theorem entryVariable_cancel {aliasName name other : String}
    (h : entryVariable aliasName name = entryVariable aliasName other) : name = other := by
  have hchars := congrArg String.toList h
  simp only [entryVariable, String.toList_append] at hchars
  exact String.toList_inj.1 (List.append_cancel_left hchars)

theorem entryVariable_inj {first second : Nat} {name other : String}
    (h : entryVariable (aliasOfCode first) name = entryVariable (aliasOfCode second) other) :
    aliasOfCode first = aliasOfCode second ∧ name = other := by
  have hchars := congrArg String.toList h
  simp only [entryVariable, String.toList_append, List.append_assoc] at hchars
  have hlength : (aliasOfCode first).toList.length = (aliasOfCode second).toList.length := by
    rw [length_aliasOfCode, length_aliasOfCode]
  obtain ⟨halias, hrest⟩ := List.append_inj hchars hlength
  exact ⟨String.toList_inj.1 halias, String.toList_inj.1 (List.append_cancel_left hrest)⟩

/-- A field of aliased selections comes back under the name that the entry gives to what the
caller expects. -/
theorem aliased_of_mem_aliasRow {aliasName : String} {copied : List String} {p : SelectionPoint}
    {row : List Lexeme} {aliased : AliasedRow} (h : aliasRow aliasName copied p row = some aliased)
    {field : ResponseField} (hfield : field ∈ aliased.fields) :
    field.aliased = entryName aliasName field.expected := by
  induction row generalizing p aliased with
  | nil =>
    simp only [aliasRow, Option.some.injEq] at h
    subst h
    simp at hfield
  | cons l rest ih =>
    simp only [aliasRow] at h
    split at h
    · cases h
    · obtain ⟨later, hlater, rfl⟩ := Option.map_eq_some_iff.1 h
      rcases List.mem_append.1 hfield with hhere | hbehind
      · -- Only the role of a key writes a field, and it writes it under the entry's name
        cases hrole : p.role copied l rest.head? <;>
          simp only [hrole, SelectionRole.field?, Option.toList_none, Option.toList_some,
            List.mem_singleton, List.not_mem_nil] at hhere
        subst hhere
        rfl
      · exact ih hlater hbehind

end QueryWeave
