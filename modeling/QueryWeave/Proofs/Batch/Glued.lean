import QueryWeave.Proofs.Batch.Selection

/-!
# Keys That Touch Numbers

What aliased selections are read as in any case. Where a response key touches a number, the alias in
front of it becomes part of the number, and the key loses its alias. All other lexemes are read as
they were spelled; in particular no variable is lost, and none is made.

- `ReadBehind`: how an aliased row is read, the first characters being part of a number.
- `exists_read_aliasRow`: aliased selections are read as a row with the same variables.
-/

namespace QueryWeave

def variablesOf (row : List Lexeme) : List Lexeme :=
  row.filter Lexeme.isVariable

/-- How an aliased row is read: `front` becomes part of a number that stands in front of it, and
`read` is what is read behind that. The variables are the same in both rows, whatever has run
together; so what is said of variables needs no condition on numbers. -/
structure ReadBehind (p : SelectionPoint) (row aliased : List Lexeme) (following front : List Char)
    (read : List Lexeme) : Prop where
  chars : Lexeme.charsOf aliased = front ++ Lexeme.charsOf read
  spells : Lexeme.Spells read following
  kept : variablesOf read = variablesOf aliased
  /-- Characters become part of a number only, and an underscore ends it. -/
  glued : front ≠ [] → p.before.any (fun b => b.kind = .other) = true ∧ IsName front ∧
    front.all isNumberPart = true ∧ (Lexeme.charsOf read).head? = some '_'
  seen : front = [] →
    Seen p (Lexeme.charsOf row ++ following) (Lexeme.charsOf read ++ following)

/-- A name that ends another one is cut off where that was. -/
theorem Lexeme.Cuts.of_name {l m : Lexeme} (hl : l.kind = .name) (hm : m.kind = .name)
    (hname : IsName m.text) {following : List Char} (h : l.Cuts following) : m.Cuts following := by
  apply (hname.whole hm).cuts
  have hclear := h.clear
  simpa [Lexeme.clearOf, hl, hm] using hclear

/-- All characters of an alias may stand in a number. -/
theorem all_isNumberPart_aliasOfCode (code : Nat) :
    (aliasOfCode code).toList.all isNumberPart = true := by
  have hdigit : ∀ n < 10, isNumberPart (Nat.digitChar n) = true := by decide
  have hlt : code % aliasCodeCount < 10000 := Nat.mod_lt _ (by decide)
  rw [aliasOfCode, String.toList_append, List.all_append]
  generalize code % aliasCodeCount = n at hlt
  rw [fourDigits, String.toList_ofList]
  simp [hdigit (n / 1000) (by omega), hdigit (n / 100 % 10) (by omega),
    hdigit (n / 10 % 10) (by omega), hdigit (n % 10) (by omega)]
  decide

section Glued

variable {aliasName : String} {copied : List String}

/-- A number in front of an alias takes it up. The characters of the alias that have run into the
number are given to the lexeme of the number, and nothing is left over in front of what is read
behind it. -/
theorem ReadBehind.take_up {p : SelectionPoint} {l : Lexeme} {rest later read : List Lexeme}
    {following front : List Char} (hfront : front ≠ []) (hgap : IsGap l.gap)
    (hcuts : l.Cuts (Lexeme.charsOf rest ++ following))
    (h : ReadBehind (p.advance l) rest later following front read) :
    ReadBehind p (l :: rest) (l :: later) following [] (l.respell (l.text ++ front) :: read) := by
  obtain ⟨hnumber, hname, hparts, hhead⟩ := h.glued hfront
  have hkind : l.kind = .other := by simpa [SelectionPoint.advance] using hnumber
  obtain ⟨c, more, htext, hshape⟩ := hcuts.whole (.inr (by simp [hkind]))
  rw [hkind] at hshape
  have hvariable : l.isVariable = false := by simp [Lexeme.isVariable, hkind]
  have hvariable' : (l.respell (l.text ++ front)).isVariable = false := hvariable
  have htaken : (l.respell (l.text ++ front)).Whole := by
    refine ⟨c, more ++ front, by simp [Lexeme.respell, htext], ?_⟩
    show Lexeme.Shape c (more ++ front) l.kind
    rw [hkind]
    exact ⟨hshape.1, by rw [List.all_append, hshape.2, hparts]; rfl⟩
  constructor
  case chars => simp [h.chars, Lexeme.respell]
  case spells =>
    refine ⟨hgap, htaken.cuts ?_, h.spells⟩
    obtain ⟨behind, hbehind⟩ := List.head?_eq_some_iff.1 hhead
    have hunderscore : isNumberPart '_' = false := by decide
    simp [Lexeme.clearOf, Lexeme.respell, hkind, hbehind, hunderscore]
  case kept =>
    have hvariables := h.kept
    unfold variablesOf at hvariables ⊢
    rw [List.filter_cons_of_neg (by simp [hvariable']), hvariables,
      List.filter_cons_of_neg (by simp [hvariable])]
  case glued => exact fun hne => absurd rfl hne
  case seen =>
    -- The number begins as it did, and no dot comes behind it
    intro _ before _ _
    left
    obtain ⟨d, behind, rfl, hstart, -⟩ := hname
    have hdot := ne_dot_of_start (.inl hstart)
    have hchars : Lexeme.charsOf (l.respell (l.text ++ d :: behind) :: read) ++ following =
        (l.gap ++ l.text) ++ (d :: behind ++ (Lexeme.charsOf read ++ following)) := by
      simp [Lexeme.respell]
    have hold : Lexeme.charsOf (l :: rest) ++ following =
        (l.gap ++ l.text) ++ (Lexeme.charsOf rest ++ following) := by
      simp
    rw [hchars, hold]
    apply Lexeme.stands_append (by simp [htext])
    intro heq
    simp only [List.cons_append, List.head?_cons, Option.some.injEq] at heq
    exact absurd heq hdot

/-- A step whose lexemes are read back, what is behind them being read as it was spelled. A key is
the one case in which characters may run together with what is in front. -/
theorem ReadBehind.step (halias : IsName aliasName.toList)
    (hparts : aliasName.toList.all isNumberPart = true) {p : SelectionPoint} {l : Lexeme}
    {rest later read spelled : List Lexeme} {fields : List ResponseField} {following : List Char}
    (hstep : AliasStep aliasName copied p l rest.head? spelled fields) (hgap : IsGap l.gap)
    (hcuts : l.Cuts (Lexeme.charsOf rest ++ following))
    (h : ReadBehind (p.advance l) rest later following [] read) :
    ∃ front read', ReadBehind p (l :: rest) (spelled ++ later) following front read' := by
  have hleads := h.seen rfl l rfl
  have hspells : Lexeme.Spells (spelled ++ read) following :=
    Lexeme.spells_append.2 ⟨hstep.spells halias hgap hcuts hleads, h.spells⟩
  have hchars : Lexeme.charsOf later = Lexeme.charsOf read := h.chars
  have hvariables : variablesOf (spelled ++ read) = variablesOf (spelled ++ later) := by
    have hlater := h.kept
    unfold variablesOf at hlater ⊢
    rw [List.filter_append, List.filter_append, hlater]
  cases hapart : (p.isKey l && l.touches && p.before.any fun b => b.kind = .other) with
  | false =>
    refine ⟨[], spelled ++ read, ?_, hspells, hvariables, fun hne => absurd rfl hne, fun _ => ?_⟩
    · rw [Lexeme.charsOf_append, hchars, List.nil_append, Lexeme.charsOf_append]
    · simpa only [Lexeme.charsOf_append, Lexeme.charsOf_cons, Lexeme.charsOf_nil, List.append_nil,
        List.append_assoc] using hstep.seen halias hapart hcuts hleads
  | true =>
    simp only [Bool.and_eq_true, Lexeme.touches, List.isEmpty_iff] at hapart
    obtain ⟨⟨hkey, htouches⟩, hnumber⟩ := hapart
    -- The key without its alias, and whatever the step spells behind it
    have hrest : l.kind = .name ∧ ∃ behind, spelled = l.toEntryName aliasName :: behind := by
      cases hstep with
      | writtenKey hkind => exact ⟨hkind, [], rfl⟩
      | bareKey hkind => exact ⟨hkind, [colon, l.bare], rfl⟩
      | variableUse hkind => rw [not_isKey p (by simp [hkind])] at hkey; cases hkey
      | copiedSpread _ _ _ hdepth => exact absurd (depth_of_isKey hkey) hdepth
      | kept _ hnot => rw [hkey] at hnot; cases hnot
    obtain ⟨hkind, behind, rfl⟩ := hrest
    obtain ⟨-, hcuts', hbehind⟩ := hspells
    have hall := (hcuts.whole (.inr (by simp [hkind]))).all_isNamePart hkind
    have hname : IsName ('_' :: l.text) := ⟨'_', l.text, rfl, by decide, hall⟩
    have hrenamed : (l.toEntryName aliasName).kind = .name := hkind
    have hkeyCuts := hcuts'.of_name (m := ⟨[], .name, '_' :: l.text⟩) hrenamed rfl hname
    refine ⟨aliasName.toList, ⟨[], .name, '_' :: l.text⟩ :: (behind ++ read), ?_,
      ⟨rfl, hkeyCuts, hbehind⟩, ?_, fun _ => ⟨hnumber, halias, hparts, by simp⟩, fun hnil => ?_⟩
    · simp [hchars, Lexeme.toEntryName, Lexeme.respell, entryName, Lexeme.word, htouches]
    · rw [← hvariables]
      simp [variablesOf, Lexeme.isVariable, Lexeme.toEntryName, Lexeme.respell, hkind]
    · obtain ⟨c, more, hc, -⟩ := halias
      rw [hc] at hnil
      cases hnil

/-- A number is not renamed. -/
theorem AliasStep.kept_of_number {p : SelectionPoint} {l : Lexeme} {next : Option Lexeme}
    {spelled : List Lexeme} {fields : List ResponseField}
    (h : AliasStep aliasName copied p l next spelled fields) (hnumber : l.kind = .other) :
    spelled = [l] := by
  cases h with
  | kept => rfl
  | _ hkind => simp [hnumber] at hkind

/-- A row can be read from any point of the walk. By induction from the back: what is behind a
lexeme is read already, and begins with characters left over for that lexeme if it is a number. -/
theorem exists_readBehind (halias : IsName aliasName.toList)
    (hparts : aliasName.toList.all isNumberPart = true) {p : SelectionPoint} (hclear : p.Clear)
    {row : List Lexeme} {aliased : AliasedRow}
    (h : aliasRow aliasName copied p row = some aliased) {following : List Char}
    (hspells : Lexeme.Spells row following) :
    ∃ front read, ReadBehind p row aliased.row following front read := by
  induction row generalizing p aliased with
  | nil =>
    cases h
    exact ⟨[], [], rfl, trivial, rfl, fun hne => absurd rfl hne,
      fun _ _ _ _ => .inl Lexeme.stands_rfl⟩
  | cons l rest ih =>
    obtain ⟨spelled, fields, later, hstep, hlater, hclear', rfl⟩ := aliasRow_inversion hclear h
    obtain ⟨hgap, hcuts, hrest⟩ := hspells
    obtain ⟨front, read, hread⟩ := ih hclear' hlater hrest
    by_cases hfront : front = []
    · subst hfront
      exact hread.step halias hparts hstep hgap hcuts
    · -- The lexeme is a number, and so it was kept
      have hnumber : l.kind = .other := by
        simpa [SelectionPoint.advance] using (hread.glued hfront).1
      have hkept := hstep.kept_of_number hnumber
      subst hkept
      exact ⟨[], _, hread.take_up hfront hgap hcuts⟩

/-- Aliased selections are read as a row of the same characters and with the same variables. Nothing
is asked of numbers and names here: where an alias runs into a number the row is another one, but
its variables are not. -/
theorem exists_read_aliasRow (halias : IsName aliasName.toList)
    (hparts : aliasName.toList.all isNumberPart = true) {row : List Lexeme} {aliased : AliasedRow}
    (h : aliasRow aliasName copied .start row = some aliased) {following : List Char}
    (hspells : Lexeme.Spells row following) :
    ∃ read, Lexeme.charsOf read = Lexeme.charsOf aliased.row ∧ Lexeme.Spells read following ∧
      variablesOf read = variablesOf aliased.row := by
  obtain ⟨front, read, hread⟩ :=
    exists_readBehind halias hparts (p := .start) (fun _ => rfl) h hspells
  -- Nothing stands in front of the selections
  have hfront : front = [] := by
    by_contra hne
    exact absurd (hread.glued hne).1 (by decide)
  subst hfront
  exact ⟨read, hread.chars.symm, hread.spells, hread.kept⟩

/-- A step spells a variable for a variable only. So no variable is made up on the way, and each
that there is carries the name of the entry. -/
theorem AliasStep.variable_of_mem {p : SelectionPoint} {l : Lexeme} {next : Option Lexeme}
    {spelled : List Lexeme} {fields : List ResponseField}
    (h : AliasStep aliasName copied p l next spelled fields) {m : Lexeme} (hm : m ∈ spelled)
    (hvariable : m.isVariable = true) :
    l.isVariable = true ∧ m = l.toEntryVariable aliasName := by
  -- A name stays a name under an alias
  have hrenamed : l.kind = .name → (l.toEntryName aliasName).isVariable ≠ true := fun hkind => by
    simp [Lexeme.isVariable, Lexeme.toEntryName, Lexeme.respell, hkind]
  cases h with
  | variableUse hkind => exact ⟨Lexeme.isVariable_iff.2 hkind, List.mem_singleton.1 hm⟩
  | copiedSpread hkind => exact absurd (List.mem_singleton.1 hm ▸ hvariable) (hrenamed hkind)
  | writtenKey hkind => exact absurd (List.mem_singleton.1 hm ▸ hvariable) (hrenamed hkind)
  | bareKey hkind =>
    simp only [List.mem_cons, List.not_mem_nil, or_false] at hm
    rcases hm with rfl | rfl | rfl
    · exact absurd hvariable (hrenamed hkind)
    · exact absurd hvariable (by decide)
    · exact absurd hvariable (by simp [Lexeme.isVariable, Lexeme.bare])
  | kept hkind =>
    rw [List.mem_singleton.1 hm] at hvariable
    exact absurd (Lexeme.isVariable_iff.1 hvariable) hkind

/-- The variables of aliased selections are those of the selections, under the entry's names. -/
theorem variable_of_mem_aliasRow {p : SelectionPoint} (hclear : p.Clear) {row : List Lexeme}
    {aliased : AliasedRow} (h : aliasRow aliasName copied p row = some aliased) :
    ∀ m ∈ aliased.row, m.isVariable = true →
      ∃ l ∈ row, l.isVariable = true ∧ m = l.toEntryVariable aliasName := by
  induction row generalizing p aliased with
  | nil =>
    cases h
    simp
  | cons l rest ih =>
    obtain ⟨spelled, fields, later, hstep, hlater, hclear', rfl⟩ := aliasRow_inversion hclear h
    intro m hm hvariable
    -- A token of the rewritten row was written for this lexeme, or for one behind it
    rcases List.mem_append.1 hm with hhere | hbehind
    · exact ⟨l, List.mem_cons_self, hstep.variable_of_mem hhere hvariable⟩
    · obtain ⟨other, hother, hfrom⟩ := ih hclear' hlater m hbehind hvariable
      exact ⟨other, List.mem_cons_of_mem _ hother, hfrom⟩

end Glued

end QueryWeave
