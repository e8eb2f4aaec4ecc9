import QueryWeave.Proofs.Fragment.History

/-!
# Type Conditions Read Back

Whether a body begins with a type condition is decided on its lexemes, in front of which may stand
whatever is ignored. The type is read back from the characters of the stored body, and there only
blank characters are passed over. So the type is read back exactly if nothing but blanks stands in
front of `on` and behind it; a comma, a byte-order mark or a comment in one of these places hides
it.

- `dropBlank_of_hidden`: where blanks are passed over, what else is ignored stays.
- `Fragment.typeCondition_of_row`: the type that is read back from a row.
- `conditionLaws_register`: the type that is read back from a body that was accepted.
-/

namespace QueryWeave

/-! ## §1 Gaps and blanks -/

theorem isBlank_of_beginsLexeme {c : Char} (h : beginsLexeme c = true) :
    Text.isBlank c = false := by
  simp only [beginsLexeme, isIgnored, Bool.and_eq_true, Bool.not_eq_true',
    Bool.or_eq_false_iff] at h
  exact h.2.2

/-- Blanks are passed over as far as a lexeme. -/
theorem dropBlank_of_plain {gap : List Char} (hgap : gap.all Text.isBlank = true) {c : Char}
    (hc : beginsLexeme c = true) (rest : List Char) :
    Text.dropBlank (gap ++ c :: rest) = c :: rest := by
  rw [Text.dropBlank, List.dropWhile_append_of_pos (List.all_eq_true.1 hgap),
    List.dropWhile_cons_of_neg (by simp [isBlank_of_beginsLexeme hc])]

/-- In a gap with more than blanks in it, what stands behind the first blanks is no lexeme. -/
theorem dropBlank_of_hidden {gap : List Char} (hgap : IsGap gap)
    (hmore : gap.all Text.isBlank = false) (rest : List Char) :
    ∃ c behind, Text.dropBlank (gap ++ rest) = c :: behind ∧ beginsLexeme c = false := by
  induction gap with
  | nil => cases hmore
  | cons c more ih =>
    by_cases hblank : Text.isBlank c = true
    · -- A blank is passed over, and what follows it is a gap with more than blanks again
      have hhash : c ≠ '#' := fun heq => by simp [heq, isBlank_hash] at hblank
      have hrest : IsGap more :=
        (gapState_cons_of_isIgnored (isIgnored_of_isBlank hblank) hhash more).symm.trans hgap
      obtain ⟨d, behind, hdrop, hd⟩ := ih hrest (by simpa [hblank] using hmore)
      refine ⟨d, behind, ?_, hd⟩
      rw [← hdrop, Text.dropBlank, List.cons_append, List.dropWhile_cons_of_pos hblank]
      rfl
    · refine ⟨c, more ++ rest, ?_, not_beginsLexeme_of_gapState hgap.isSome⟩
      rw [Text.dropBlank, List.cons_append, List.dropWhile_cons_of_neg hblank]

/-- A name is read from behind its gap exactly if the gap is blank. Blanks are all that is skipped:
at a comma or a comment the reading stops, and gives the empty text. -/
theorem takeWhile_behind_gap {l : Lexeme} {after : List Char} (hgap : IsGap l.gap)
    (hkind : l.kind = .name) (hcuts : l.Cuts after) :
    (Text.dropBlank (l.gap ++ (l.text ++ after))).takeWhile isNamePart =
      if l.gap.all Text.isBlank then l.text else [] := by
  have hclear := hcuts.clear
  have hparts := (hcuts.whole (.inr (by simp [hkind]))).all_isNamePart hkind
  obtain ⟨c, more, htext, hbegins, -⟩ := hcuts
  by_cases hplain : l.gap.all Text.isBlank = true
  · have hdrop := dropBlank_of_plain hplain hbegins (more ++ after)
    rw [← List.cons_append, ← htext] at hdrop
    have hstop : after.takeWhile isNamePart = [] := by
      simp only [Lexeme.clearOf, hkind, Bool.not_eq_true'] at hclear
      cases after with
      | nil => rfl
      | cons d later => exact List.takeWhile_cons_of_neg (by simpa using hclear)
    rw [hdrop, List.takeWhile_append_of_pos (List.all_eq_true.1 hparts), hstop, List.append_nil,
      if_pos hplain]
  · -- What hides the name is no part of one
    obtain ⟨d, behind, hdrop, hd⟩ :=
      dropBlank_of_hidden hgap (Bool.eq_false_iff.2 hplain) (l.text ++ after)
    have hnone : ¬isNamePart d = true := fun hpart => by
      simp [(beginsLexeme_of_part (.inl hpart)).1] at hd
    rw [hdrop, List.takeWhile_cons_of_neg hnone, if_neg hplain]

/-- The word `on` is found behind its gap exactly if the gap is blank. -/
theorem Fragment.behindOn_gap {gap : List Char} (hgap : IsGap gap) (rest : List Char) :
    behindOn (Text.dropBlank (gap ++ 'o' :: 'n' :: rest)) =
      if gap.all Text.isBlank then rest else [] := by
  by_cases hplain : gap.all Text.isBlank = true
  · rw [dropBlank_of_plain hplain (by decide), if_pos hplain]
    rfl
  · -- What hides the word is another character than its first
    obtain ⟨d, behind, hdrop, hd⟩ :=
      dropBlank_of_hidden hgap (Bool.eq_false_iff.2 hplain) ('o' :: 'n' :: rest)
    rw [hdrop, if_neg hplain]
    unfold behindOn
    split
    · rename_i heq
      cases heq
      exact absurd hd (by decide)
    · rfl

/-! ## §2 Types of bodies -/

/-- The type that a body names: its second lexeme. -/
def namedType (body : String) : String :=
  ((scanText body).lexemes[1]?.map Lexeme.word).getD ""

/-- Whether nothing but blanks stands in front of the first two lexemes of a body. -/
def opensPlainly (body : String) : Bool :=
  ((scanText body).lexemes.take 2).all fun l => l.gap.all Text.isBlank

namespace Fragment

/-- What is to be expected of a fragment that was registered with a body: it has the type that the
body names. -/
def ReadsCondition (f : Fragment) (body : String) : Prop :=
  f.typeCondition = namedType body

instance (f : Fragment) (body : String) : Decidable (f.ReadsCondition body) :=
  inferInstanceAs (Decidable (_ = _))

/-- The type that is read back from a row that begins with a type condition. Both gaps matter, that
of the word `on` and that of the type. -/
theorem typeCondition_of_row {f : Fragment} {on typeName : Lexeme} {rest : List Lexeme}
    (hrow : f.row = on :: typeName :: rest) (hon : on.text = ['o', 'n'])
    (htype : typeName.kind = .name) :
    f.typeCondition =
      if on.gap.all Text.isBlank && typeName.gap.all Text.isBlank then typeName.word else "" := by
  obtain ⟨hspells, -⟩ := spells_scan f.body.toList
  have hchars : Lexeme.charsOf f.row ++ (scan f.body.toList).trailer = f.body.toList := chars_scan _
  change Lexeme.Spells f.row _ at hspells
  rw [hrow] at hspells hchars
  obtain ⟨honGap, -, htypeGap, hcuts, -⟩ := hspells
  -- The body: `on` behind its gap, and then the type behind its own
  have hbody : f.body.toList = on.gap ++ 'o' :: 'n' :: (typeName.gap ++
      (typeName.text ++ (Lexeme.charsOf rest ++ (scan f.body.toList).trailer))) := by
    simpa [hon] using hchars.symm
  have hread := takeWhile_behind_gap htypeGap htype hcuts
  unfold typeCondition
  dsimp only
  rw [hbody, behindOn_gap honGap]
  cases honPlain : on.gap.all Text.isBlank with
  | false => rfl
  | true =>
    simp only [if_true, hread, Bool.true_and]
    split
    · rfl
    · exact String.ofList_nil

end Fragment

/-! ## §3 Accepted bodies -/

/-- What is placed is found under its flat name. -/
theorem Library.find?_place_self (f : Fragment) (fragments : List Fragment) :
    (place f fragments).find? (fun g => g.flatName = f.flatName) = some f := by
  induction fragments with
  | nil => simp [place]
  | cons first rest ih =>
    rw [place]
    split
    · rw [List.find?_cons_of_pos (by simp)]
    · rename_i hother
      rw [List.find?_cons_of_neg (by simpa using hother), ih]

/-- What is stored for a body that is accepted is found under its path. -/
theorem Library.find?_of_register {lib next : Library} {path body : String}
    (h : lib.register path body = .ok next) :
    next.find? path = some (Fragment.stored (path, body)) := by
  obtain ⟨-, rfl⟩ := register_inversion h
  exact find?_place_self (Fragment.stored (path, body)) lib.fragments

/-- What is read back of the type of a body that was accepted. The body names a type in any case, so
a body whose type is not read back has the empty text in its place, and no error is reported. -/
structure ConditionLaws (body : String) (f : Fragment) : Prop where
  /-- The body names a type, behind the word `on`. -/
  named : ∃ on typeName rest, (scanText body).lexemes = on :: typeName :: rest ∧
    on.word = "on" ∧ typeName.kind = .name ∧ namedType body = typeName.word ∧ namedType body ≠ ""
  /-- It is read back if nothing but blanks stands in front of either. -/
  plain : opensPlainly body = true → f.typeCondition = namedType body
  /-- Otherwise no type is read back. -/
  hidden : opensPlainly body = false → f.typeCondition = ""
  /-- So the expectation is met exactly by bodies that open plainly. -/
  expected : f.ReadsCondition body ↔ opensPlainly body = true

/-- **The type of a body that was accepted is read back exactly if the body opens plainly.**
Registration skips comments and commas in front of the type condition, and reading it back skips
blanks only. -/
theorem conditionLaws_register {lib next : Library} {path body : String}
    (h : lib.register path body = .ok next) :
    ∃ f, next.find? path = some f ∧ f.path = path ∧ ConditionLaws body f := by
  refine ⟨_, Library.find?_of_register h, Fragment.path_stored _, ?_⟩
  obtain ⟨hcondition, -⟩ := Library.register_inversion h
  obtain ⟨on, typeName, rest, hrow, honKind, hon, htype⟩ := exists_of_beginsWithCondition hcondition
  have hnamed : namedType body = typeName.word := by
    simp [namedType, hrow]
  -- The two lexemes are stored as they are, and whatever they are followed by
  have hstored : ∃ later, (Fragment.stored (path, body)).row = on :: typeName :: later := by
    refine ⟨respread Spread.flattened rest, ?_⟩
    rw [Fragment.row, Fragment.scanText_stored]
    dsimp only
    rw [hrow, respread_cons_single (by simp [honKind]), respread_cons_single (by simp [htype])]
  obtain ⟨later, hlater⟩ := hstored
  have hread := Fragment.typeCondition_of_row hlater hon htype
  have hplainly : opensPlainly body =
      (on.gap.all Text.isBlank && typeName.gap.all Text.isBlank) := by
    simp [opensPlainly, hrow]
  have hsome : namedType body ≠ "" := by
    have hspells : Lexeme.Spells (scanText body).lexemes _ := (spells_scan body.toList).1
    rw [hrow] at hspells
    obtain ⟨-, -, -, ⟨c, more, htext, -⟩, -⟩ := hspells
    rw [hnamed, Lexeme.word, htext]
    intro hnil
    have hchars := congrArg String.toList hnil
    simp at hchars
  rw [← hplainly, ← hnamed] at hread
  constructor
  case named =>
    exact ⟨on, typeName, rest, hrow, by rw [Lexeme.word, hon], htype, hnamed, hsome⟩
  case plain => exact fun hplain => by rw [hread, if_pos hplain]
  case hidden => exact fun hhidden => by rw [hread, hhidden]; rfl
  case expected =>
    rw [Fragment.ReadsCondition, hread]
    cases opensPlainly body with
    | true => simp
    | false => simpa using hsome.symm

/-- An empty library accepts every body that begins with a type condition. -/
theorem Library.exists_register_empty (path : String) {body : String}
    (h : beginsWithCondition (scanText body).lexemes = true) :
    ∃ next, Library.empty.register path body = .ok next := by
  unfold register
  dsimp only
  rw [h]
  exact ⟨_, rfl⟩

/-- The laws hold of a body with a line break behind `on`. -/
theorem conditionLaws_twoLines :
    ∃ next, Library.empty.register "card" " on\n\tCard {id}" = .ok next ∧
      ∃ f, next.find? "card" = some f ∧ f.path = "card" ∧
        ConditionLaws " on\n\tCard {id}" f := by
  obtain ⟨next, hregister⟩ :=
    @Library.exists_register_empty "card" " on\n\tCard {id}" (by decide +kernel)
  exact ⟨next, hregister, conditionLaws_register hregister⟩

/-- A body behind a comment is accepted, and its type is not read back. -/
theorem not_readsCondition_behindComment :
    ∃ next f, Library.empty.register "card" "# One card.\non Card {id}" = .ok next ∧
      next.find? "card" = some f ∧ ¬f.ReadsCondition "# One card.\non Card {id}" := by
  obtain ⟨next, hregister⟩ :=
    @Library.exists_register_empty "card" "# One card.\non Card {id}" (by decide +kernel)
  refine ⟨next, _, hregister, Library.find?_of_register hregister, ?_⟩
  decide +kernel

end QueryWeave
