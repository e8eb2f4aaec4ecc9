import QueryWeave.Proofs.Batch.Walk

/-!
# Aliased Selections Are Read Back

Aliasing puts names in the place of names and variables in the place of variables, so what stands
in front of a renamed lexeme mostly cannot tell. There is one exception: a response key may touch
a number, as `_a` does in `1_a`, and with an alias in front it would become part of the number.
Where this does not happen, aliased selections are spelled.

- `keysApart`: no response key touches a number.
- `spells_aliasRow`: aliased selections are spelled.
-/

namespace QueryWeave

/-- Whether no response key at the top level directly touches a number. -/
def keysApart (p : SelectionPoint) : List Lexeme → Bool
  | [] => true
  | l :: rest =>
    !(p.isKey l && l.touches && p.before.any fun b => b.kind = .other) &&
      keysApart (p.advance l) rest

section Selection

variable {aliasName : String} {copied : List String}

/-- Whether what stands in front of an aliased row, other than an ellipsis, sees the row as it saw
the row it was made from. -/
def Seen (p : SelectionPoint) (old new : List Char) : Prop :=
  ∀ before ∈ p.before, before.kind ≠ .ellipsis → before.Leads old new

/-- Helper: one name in the place of another is seen alike, except by a number that it touches. -/
private theorem seen_of_key {p : SelectionPoint} {l : Lexeme} (hkey : p.isKey l = true)
    (hapart : (p.isKey l && l.touches && p.before.any fun b => b.kind = .other) = false)
    {oldName newName : List Char} (hold : IsName oldName) (hnew : IsName newName)
    (old new : List Char) :
    Seen p (l.gap ++ (oldName ++ old)) (l.gap ++ (newName ++ new)) := by
  obtain ⟨c, oldMore, rfl, hc, -⟩ := hold
  obtain ⟨d, newMore, rfl, hd, -⟩ := hnew
  intro before hbefore _
  by_cases hgap : l.gap = []
  · -- The key touches what stands in front of it, and that is no number
    have hnumber : before.kind ≠ .other := by
      rw [Option.mem_def] at hbefore
      simpa [hkey, Lexeme.touches, hgap, hbefore] using hapart
    rw [hgap]
    exact .inr ⟨hnumber, by simpa using hc, by simpa using hd⟩
  · left
    apply Lexeme.stands_append hgap
    intro hdot
    have hne := ne_dot_of_start (.inl hd)
    simp only [List.cons_append, List.head?_cons, Option.some.injEq] at hdot
    exact absurd hdot hne

private theorem charsOf_singleton_append (l : Lexeme) (text : List Char) :
    Lexeme.charsOf [l] ++ text = l.gap ++ (l.text ++ text) := by
  simp

/-- One step spells lexemes that are read back. The word `on` and the ellipsis are kept as they are,
so what is spelled is seen by its neighbours as the lexeme was. -/
theorem AliasStep.spells (halias : IsName aliasName.toList) {p : SelectionPoint}
    {l : Lexeme} {next : Option Lexeme} {spelled : List Lexeme} {fields : List ResponseField}
    (h : AliasStep aliasName copied p l next spelled fields) {old new : List Char}
    (hgap : IsGap l.gap) (hcuts : l.Cuts old) (hseen : l.kind ≠ .ellipsis → l.Leads old new) :
    Lexeme.Spells spelled new := by
  cases h with
  | variableUse hkind =>
    have hwhole := hcuts.whole (.inr (by simp [hkind]))
    have hclear := (hcuts.leads (hseen (by simp [hkind]))).clear
    refine ⟨hgap, (whole_toEntryVariable halias hkind hwhole).cuts ?_, trivial⟩
    simpa [Lexeme.clearOf, Lexeme.toEntryVariable, Lexeme.respell, hkind] using hclear
  | copiedSpread hkind hcopied hbefore hdepth =>
    have hwhole := hcuts.whole (.inr (by simp [hkind]))
    have hclear := (hcuts.leads (hseen (by simp [hkind]))).clear
    refine ⟨hgap, (whole_toEntryName halias hkind hwhole).cuts ?_, trivial⟩
    simpa [Lexeme.clearOf, Lexeme.toEntryName, Lexeme.respell, hkind] using hclear
  | writtenKey hkind hkey hnot hnext =>
    have hwhole := hcuts.whole (.inr (by simp [hkind]))
    have hclear := (hcuts.leads (hseen (by simp [hkind]))).clear
    refine ⟨hgap, (whole_toEntryName halias hkind hwhole).cuts ?_, trivial⟩
    simpa [Lexeme.clearOf, Lexeme.toEntryName, Lexeme.respell, hkind] using hclear
  | bareKey hkind hkey hnot hnext =>
    have hwhole := hcuts.whole (.inr (by simp [hkind]))
    have hrenamed := whole_toEntryName halias hkind hwhole
    have hcolon : colon.Whole :=
      ⟨':', [], rfl, rfl, rfl, by decide, by decide, by decide, by decide⟩
    -- Behind the colon the name is cut off the text as it was without its gap
    have hbare : l.bare.Cuts new := by
      obtain ⟨c, more, htext, hbegins, hclass⟩ := hcuts.leads (hseen (by simp [hkind]))
      exact ⟨c, more, htext, hbegins, by rw [hclass, hkind]; rfl⟩
    refine ⟨hgap, hrenamed.cuts ?_, rfl, hcolon.cuts rfl, rfl, hbare, trivial⟩
    exact Lexeme.clearOf_of_separates _ (by decide) _
  | kept hkind hkey hnot hdots =>
    by_cases hellipsis : l.kind = .ellipsis
    · -- An ellipsis is cut off in front of any name
      exact ⟨hgap, (hcuts.ellipsis hellipsis new).1, trivial⟩
    · exact ⟨hgap, hcuts.leads (hseen hellipsis), trivial⟩

/-- What one step spells is seen from the front as the lexeme was, unless it is a key that touches a
number. -/
theorem AliasStep.seen (halias : IsName aliasName.toList) {p : SelectionPoint}
    {l : Lexeme} {next : Option Lexeme} {spelled : List Lexeme} {fields : List ResponseField}
    (h : AliasStep aliasName copied p l next spelled fields)
    (hapart : (p.isKey l && l.touches && p.before.any fun b => b.kind = .other) = false)
    {old new : List Char} (hcuts : l.Cuts old) (hseen : l.kind ≠ .ellipsis → l.Leads old new) :
    Seen p (Lexeme.charsOf [l] ++ old) (Lexeme.charsOf spelled ++ new) := by
  rw [charsOf_singleton_append l]
  cases h with
  | variableUse hkind =>
    obtain ⟨name, htext, -⟩ := (hcuts.whole (.inr (by simp [hkind]))).isName_drop hkind
    intro _ _ _
    -- The dollar sign stays in front
    rw [charsOf_singleton_append, htext]
    left
    apply Lexeme.Stands.append
    exact ⟨rfl, fun htake => by simp [Lexeme.toEntryVariable, Lexeme.respell] at htake⟩
  | copiedSpread hkind hcopied hbefore hdepth =>
    -- Only an ellipsis stands in front
    intro before hmem hne
    rw [Option.mem_def] at hmem
    simp [hmem, hne] at hbefore
  | writtenKey hkind hkey hnot hnext =>
    have hwhole := hcuts.whole (.inr (by simp [hkind]))
    have hrenamed := whole_toEntryName halias hkind hwhole
    rw [charsOf_singleton_append]
    exact seen_of_key hkey hapart (hwhole.isName hkind) (hrenamed.isName hkind) old new
  | bareKey hkind hkey hnot hnext =>
    have hwhole := hcuts.whole (.inr (by simp [hkind]))
    have hrenamed := whole_toEntryName halias hkind hwhole
    rw [Lexeme.charsOf_cons, List.append_assoc, List.append_assoc]
    exact seen_of_key hkey hapart (hwhole.isName hkind) (hrenamed.isName hkind) old _
  | kept hkind hkey hnot hdots =>
    rw [charsOf_singleton_append]
    intro _ _ _
    left
    by_cases hellipsis : l.kind = .ellipsis
    · exact (hcuts.ellipsis hellipsis new).2
    · have htext : l.text ≠ [] := by
        obtain ⟨c, more, htext, -⟩ := hcuts
        simp [htext]
      exact ((hseen hellipsis).append htext).append l.gap

/-- Aliased selections are spelled from any point of the walk, and seen from it as the selections
were. By induction from the back: what is behind a lexeme is spelled already, and seen by it. -/
theorem spells_and_seen_aliasRow (halias : IsName aliasName.toList) {p : SelectionPoint}
    (hclear : p.Clear) {row : List Lexeme} {aliased : AliasedRow}
    (h : aliasRow aliasName copied p row = some aliased) {following : List Char}
    (hspells : Lexeme.Spells row following) (hapart : keysApart p row = true) :
    Lexeme.Spells aliased.row following ∧
      Seen p (Lexeme.charsOf row ++ following) (Lexeme.charsOf aliased.row ++ following) := by
  induction row generalizing p aliased with
  | nil =>
    cases h
    exact ⟨trivial, fun _ _ _ => .inl Lexeme.stands_rfl⟩
  | cons l rest ih =>
    obtain ⟨spelled, fields, later, hstep, hlater, hclear', rfl⟩ := aliasRow_inversion hclear h
    obtain ⟨hgap, hcuts, hrest⟩ := hspells
    simp only [keysApart, Bool.and_eq_true, Bool.not_eq_true'] at hapart
    obtain ⟨hspelled, hseen⟩ := ih hclear' hlater hrest hapart.2
    have hhere := hstep.seen halias hapart.1 hcuts (hseen l rfl)
    refine ⟨Lexeme.spells_append.2 ⟨hstep.spells halias hgap hcuts (hseen l rfl), hspelled⟩, ?_⟩
    simpa only [Lexeme.charsOf_append, Lexeme.charsOf_cons, Lexeme.charsOf_nil, List.append_nil,
      List.append_assoc] using hhere

/-- Aliased selections are spelled where the selections were, if their keys do not touch numbers. -/
theorem spells_aliasRow (halias : IsName aliasName.toList) {row : List Lexeme}
    {aliased : AliasedRow} (h : aliasRow aliasName copied .start row = some aliased)
    {following : List Char} (hspells : Lexeme.Spells row following)
    (hapart : keysApart .start row = true) : Lexeme.Spells aliased.row following := by
  have hstart : SelectionPoint.start.Clear := fun _ => rfl
  exact (spells_and_seen_aliasRow halias hstart h hspells hapart).1

end Selection

end QueryWeave
