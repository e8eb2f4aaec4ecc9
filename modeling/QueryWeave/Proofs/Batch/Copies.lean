import QueryWeave.Batch.Isolation
import QueryWeave.Proofs.Batch.Naming
import QueryWeave.Proofs.Fragment.Registered

/-!
# Copied Bodies

The copy of a body that an entry takes along renames variables and copied fragments, and leaves
everything else as it was: the pieces of the copy are the pieces of the body, each renamed by
itself. The copy is spelled, so that it is read back as it was made.

- `pieces_copyRow`: the pieces of a copy.
- `scan_copyBody`: copies are read back.
- `EntryFragments.add_cases`: which bodies are copied.
-/

namespace QueryWeave

/-! ## §1 Names under an alias -/

theorem isName_aliasOfCode (code : Nat) : IsName (aliasOfCode code).toList := by
  have hdigit : ∀ n < 10, isNamePart (Nat.digitChar n) = true := by decide
  have hlt : code % aliasCodeCount < 10000 := Nat.mod_lt _ (by decide)
  refine ⟨'m', "erge".toList ++ (fourDigits (code % aliasCodeCount)).toList, ?_, by decide, ?_⟩
  · rw [aliasOfCode, String.toList_append]
    rfl
  · generalize code % aliasCodeCount = n at hlt
    rw [List.all_append, fourDigits, String.toList_ofList]
    simp [hdigit (n / 1000) (by omega), hdigit (n / 100 % 10) (by omega),
      hdigit (n / 10 % 10) (by omega), hdigit (n % 10) (by omega)]
    decide

theorem isName_entryName {aliasName name : String} (halias : IsName aliasName.toList)
    (hname : name.toList.all isNamePart = true) : IsName (entryName aliasName name).toList := by
  rw [entryName, String.toList_append, String.toList_append, List.append_assoc]
  exact halias.append (by rw [List.all_append, hname]; decide)

theorem isName_entryVariable {aliasName name : String} (halias : IsName aliasName.toList)
    (hname : name.toList.all isNamePart = true) :
    IsName (entryVariable aliasName name).toList := by
  rw [entryVariable, String.toList_append, String.toList_append, List.append_assoc]
  exact halias.append (by rw [List.all_append, hname]; decide)

/-- No name of an entry is the word that begins a type condition. -/
theorem entryName_ne_on (aliasName name : String) : entryName aliasName name ≠ "on" := by
  intro heq
  have hmem : '_' ∈ (entryName aliasName name).toList := by
    simp [entryName]
  rw [heq] at hmem
  exact absurd hmem (by decide)

/-! ## §2 The pieces of a copy

Copies are made lexeme by lexeme, and meaning goes by pieces. The two are brought together once: a
copy renames inside of pieces and never across their borders. -/

/-- A piece as it stands in a copy: variables and copied fragments go by the entry's names. No piece
is split or joined by it, so a copy can be looked at piece by piece. -/
def Piece.copy (aliasName : String) (copied : List String) : Piece → Piece
  | .single l => .single (if l.isVariable then l.toEntryVariable aliasName else l)
  | .spread s =>
    .spread { s with head := if s.head.word ∈ copied then s.head.toEntryName aliasName else s.head }

section Copy

variable {aliasName : String} {copied : List String}

@[simp] theorem word_toEntryName (l : Lexeme) :
    (l.toEntryName aliasName).word = entryName aliasName l.word := by
  simp [Lexeme.toEntryName, Lexeme.respell, Lexeme.word]

/-- A lexeme keeps its gap and its kind in a copy. -/
theorem copyRow_respells (before : Option Lexeme) (l : Lexeme) (rest : List Lexeme) :
    ∃ text, copyRow aliasName copied before (l :: rest) =
      l.respell text :: copyRow aliasName copied (some l) rest := by
  rw [copyRow]
  split
  · exact ⟨_, rfl⟩
  · split
    · exact ⟨_, rfl⟩
    · exact ⟨l.text, rfl⟩

/-- Helper: segments are told by kinds and gaps alone. -/
private theorem takeSegments_copyRow {row : List Lexeme} (before : Option Lexeme)
    (h : takeSegments row = ([], row)) :
    takeSegments (copyRow aliasName copied before row) =
      ([], copyRow aliasName copied before row) := by
  match row, h with
  | [], _ => rfl
  | [l], _ =>
    obtain ⟨text, hl⟩ := @copyRow_respells aliasName copied before l []
    rw [hl]
    rfl
  | dot :: segment :: rest, h =>
    -- The first two lexemes keep their kinds and gaps
    have hcontinues := continuesPath_of_takeSegments h
    obtain ⟨dotText, hdot⟩ := @copyRow_respells aliasName copied before dot (segment :: rest)
    obtain ⟨text, hsegment⟩ := @copyRow_respells aliasName copied (some dot) segment rest
    rw [hdot, hsegment, takeSegments, if_neg]
    rw [Bool.not_eq_true]
    exact hcontinues

/-- Helper: where no path begins, no copy is named. -/
private theorem not_namesCopy (hon : "on" ∉ copied) {before : Option Lexeme} {l : Lexeme}
    (hbefore : before.any (fun b => b.kind = .ellipsis) = true → beginsPath l = false) :
    namesCopy copied before l = false := by
  by_contra hcopy
  simp only [Bool.not_eq_false, namesCopy, Bool.and_eq_true, decide_eq_true_eq] at hcopy
  obtain ⟨⟨hellipsis, hname⟩, hmem⟩ := hcopy
  have hbegins := hbefore hellipsis
  simp only [beginsPath, hname, Bool.true_and, ne_eq, decide_not, Bool.not_eq_false',
    decide_eq_true_eq] at hbegins
  rw [Lexeme.word, hbegins] at hmem
  exact hon hmem

/-- Helper: where no path begins in front, none begins in front of a copy. -/
private theorem not_beginsPath_copyRow (hon : "on" ∉ copied) {before : Option Lexeme}
    {row : List Lexeme} (h : row.head?.any beginsPath = false) :
    (copyRow aliasName copied before row).head?.any beginsPath = false := by
  cases row with
  | nil => rfl
  | cons l rest =>
    have hnot : beginsPath l = false := h
    have hkept := @not_namesCopy copied hon before l fun _ => hnot
    rw [copyRow, hkept]
    -- A variable begins no path, renamed or not
    by_cases hvariable : l.isVariable = true
    · have hkind := Lexeme.isVariable_iff.1 hvariable
      simp [hvariable, beginsPath, Lexeme.toEntryVariable, Lexeme.respell, Lexeme.isName, hkind]
    · simpa [hvariable] using hnot

/-- The pieces of a copy are the pieces of the body, each renamed by itself. Whatever is said of the
spreads of a copy goes through this: a spread of the copy is one of the body, under the entry's name
where its fragment is copied. -/
theorem pieces_copyRow (hon : "on" ∉ copied) {row : List Lexeme} (hflat : FlatSpreads row)
    {before : Option Lexeme}
    (hbefore : before.any (fun b => b.kind = .ellipsis) = true →
      row.head?.any beginsPath = false) :
    pieces (copyRow aliasName copied before row) =
      (pieces row).map (Piece.copy aliasName copied) := by
  induction row using pieces_induction generalizing before with
  | nil => simp [copyRow]
  | single l rest hsingle ih =>
    have hcopy := not_namesCopy hon fun hellipsis => by simpa using hbefore hellipsis
    have hlater := @ih (hflat.behind_single hsingle) (some l) (by simpa using hsingle)
    have hl : copyRow aliasName copied before (l :: rest) =
        (if l.isVariable then l.toEntryVariable aliasName else l) ::
          copyRow aliasName copied (some l) rest := by
      rw [copyRow]
      simp [hcopy]
    -- Renamed or not, the lexeme begins a spread no more than it did
    have hnew : (if l.isVariable then l.toEntryVariable aliasName else l).kind = .ellipsis →
        (copyRow aliasName copied (some l) rest).head?.any beginsPath = false := by
      intro hkind
      have hdots : l.kind = .ellipsis := by
        split at hkind
        · exact hkind
        · exact hkind
      exact not_beginsPath_copyRow hon (hsingle hdots)
    rw [hl, pieces_cons_single hnew, hlater, pieces_cons_single hsingle]
    rfl
  | spread dots head rest hdots hhead ih =>
    obtain ⟨hend, hrest⟩ := hflat.behind_spread hdots hhead
    have hname := kind_of_beginsPath hhead
    have hl : copyRow aliasName copied before (dots :: head :: rest) =
        dots :: copyRow aliasName copied (some dots) (head :: rest) := by
      rw [copyRow]
      simp [Lexeme.isVariable, namesCopy, Lexeme.isName, hdots]
    -- The name of the spread is the one lexeme that may name a copied fragment
    have hnext : copyRow aliasName copied (some dots) (head :: rest) =
        (if head.word ∈ copied then head.toEntryName aliasName else head) ::
          copyRow aliasName copied (some head) rest := by
      rw [copyRow]
      simp [Lexeme.isVariable, namesCopy, Lexeme.isName, hdots, hname]
    have hbegins : beginsPath
        (if head.word ∈ copied then head.toEntryName aliasName else head) = true := by
      split
      · have hne : (entryName aliasName head.word).toList ≠ ['o', 'n'] := fun heq =>
          entryName_ne_on aliasName head.word (String.toList_inj.1 heq)
        simp [beginsPath, Lexeme.toEntryName, Lexeme.respell, Lexeme.isName, hname, hne]
      · exact hhead
    rw [hend] at ih
    have hlater := @ih hrest (some head) (by simp [hname])
    rw [hl, hnext, pieces_cons_spread hdots hbegins, takeSegments_copyRow _ hend, hlater,
      pieces_cons_spread hdots hhead, hend]
    rfl

/-- In a flat row the path of a spread is the one name behind the ellipsis. -/
theorem FlatSpreads.path_eq {row : List Lexeme} (hflat : FlatSpreads row) {s : Spread}
    (hs : s ∈ spreads row) : s.path = s.head.word := by
  simp [Spread.path, Spread.pathText, Spread.pathRow, hflat s hs, Spread.segmentRow,
    Lexeme.spanText, Lexeme.word]

/-- A copy is determined piece by piece. -/
theorem copyRow_eq {row : List Lexeme} (hflat : FlatSpreads row) (hon : "on" ∉ copied) :
    copyRow aliasName copied none row =
      Piece.rowOf ((pieces row).map (Piece.copy aliasName copied)) := by
  have hpieces := @pieces_copyRow aliasName copied hon row hflat none (by simp)
  rw [← hpieces, rowOf_pieces]

/-- A copy depends on the copied fragments only through those that the body spreads. So the copies
that isolation made early on are not outdated by the fragments that it copies later. -/
theorem copyRow_congr {other : List String} {row : List Lexeme} (hflat : FlatSpreads row)
    (hon : "on" ∉ copied) (honOther : "on" ∉ other)
    (hsame : ∀ path ∈ spreadPaths row, (path ∈ copied ↔ path ∈ other)) :
    copyRow aliasName copied none row = copyRow aliasName other none row := by
  rw [copyRow_eq hflat hon, copyRow_eq hflat honOther]
  congr 1
  apply List.map_congr_left
  intro piece hpiece
  -- Only the name of a spread is looked up among the copied fragments
  cases piece with
  | single l => rfl
  | spread s =>
    have hs : s ∈ spreads row := List.mem_filterMap.2 ⟨.spread s, hpiece, rfl⟩
    have hmem := hsame s.path (List.mem_map_of_mem hs)
    rw [hflat.path_eq hs] at hmem
    simp only [Piece.copy, hmem]

/-- Without variables and copied spreads a body is its own copy. So a fragment on which no variable
depends can be sent once, for all entries. -/
theorem copyRow_eq_self {row : List Lexeme} (hflat : FlatSpreads row) (hon : "on" ∉ copied)
    (hvariables : ∀ l ∈ row, l.isVariable = false)
    (hpaths : ∀ path ∈ spreadPaths row, path ∉ copied) :
    copyRow aliasName copied none row = row := by
  -- No piece is renamed, and so the pieces put together are the row
  have hkeep : ∀ piece ∈ pieces row, piece.copy aliasName copied = id piece := by
    intro piece hpiece
    cases piece with
    | single l =>
      have hl : l ∈ row := by
        rw [← rowOf_pieces row]
        exact List.mem_flatMap.2 ⟨.single l, hpiece, List.mem_cons_self⟩
      simp [Piece.copy, hvariables l hl]
    | spread s =>
      have hs : s ∈ spreads row := List.mem_filterMap.2 ⟨.spread s, hpiece, rfl⟩
      have hnot := hpaths s.path (List.mem_map_of_mem hs)
      rw [hflat.path_eq hs] at hnot
      simp [Piece.copy, hnot]
  rw [copyRow_eq hflat hon, List.map_congr_left hkeep, List.map_id, rowOf_pieces]

/-! ## §3 Copies are read back -/

theorem whole_toEntryVariable (halias : IsName aliasName.toList) {l : Lexeme}
    (hkind : l.kind = .variable) (hwhole : l.Whole) : (l.toEntryVariable aliasName).Whole := by
  obtain ⟨name, htext, hname⟩ := hwhole.isName_drop hkind
  refine IsName.whole_variable (isName_entryVariable halias ?_) hkind rfl
  simpa [Lexeme.variableName, htext] using hname.all

theorem whole_toEntryName (halias : IsName aliasName.toList) {l : Lexeme} (hkind : l.kind = .name)
    (hwhole : l.Whole) : (l.toEntryName aliasName).Whole := by
  refine IsName.whole (isName_entryName halias ?_) hkind
  simpa [Lexeme.word] using (hwhole.isName hkind).all

/-- A copy is spelled where the body was. Only behind an ellipsis its first lexeme may look
different. -/
theorem spells_copyRow (halias : IsName aliasName.toList) {row : List Lexeme}
    {before : Option Lexeme} {following : List Char} (h : Lexeme.Spells row following) :
    Lexeme.Spells (copyRow aliasName copied before row) following ∧
      (before.any (fun b => b.kind = .ellipsis) = false →
        Lexeme.Stands (Lexeme.charsOf row ++ following)
          (Lexeme.charsOf (copyRow aliasName copied before row) ++ following)) := by
  induction row generalizing before with
  | nil => exact ⟨trivial, fun _ => Lexeme.stands_rfl⟩
  | cons l rest ih =>
    obtain ⟨hgap, hcuts, hrest⟩ := h
    obtain ⟨hlater, hstands⟩ := @ih (some l) hrest
    rw [copyRow]
    simp only [Lexeme.charsOf_cons, List.append_assoc]
    split
    · -- A variable: the dollar sign stays in front
      rename_i hvariable
      have hkind := Lexeme.isVariable_iff.1 hvariable
      have hwhole := hcuts.whole (.inr (by simp [hkind]))
      have hclear := (hstands (by simp [hkind])).clearOf hcuts.clear
      obtain ⟨name, htext, -⟩ := hwhole.isName_drop hkind
      refine ⟨⟨hgap, (whole_toEntryVariable halias hkind hwhole).cuts ?_, hlater⟩, fun _ => ?_⟩
      · simpa [Lexeme.clearOf, Lexeme.toEntryVariable, Lexeme.respell, hkind] using hclear
      · apply Lexeme.Stands.append
        rw [htext]
        exact ⟨rfl, fun htake => by simp [Lexeme.toEntryVariable, Lexeme.respell] at htake⟩
    · split
      · -- The name of a copied fragment: it stands behind an ellipsis
        rename_i hcopy
        simp only [namesCopy, Bool.and_eq_true] at hcopy
        have hkind := Lexeme.isName_iff.1 hcopy.1.2
        have hwhole := hcuts.whole (.inr (by simp [hkind]))
        have hclear := (hstands (by simp [hkind])).clearOf hcuts.clear
        refine ⟨⟨hgap, (whole_toEntryName halias hkind hwhole).cuts ?_, hlater⟩, fun hbefore => ?_⟩
        · simpa [Lexeme.clearOf, Lexeme.toEntryName, Lexeme.respell, hkind] using hclear
        · rw [hcopy.1.1] at hbefore
          cases hbefore
      · -- Everything else is kept, and an ellipsis is cut whatever stands behind it
        by_cases hdots : l.kind = .ellipsis
        · have hl := hcuts.ellipsis hdots
          exact ⟨⟨hgap, (hl _).1, hlater⟩, fun _ => (hl _).2⟩
        · have hlook := hstands (by simp [hdots])
          exact ⟨⟨hgap, hcuts.stands hlook, hlater⟩, fun _ => (hlook.append l.text).append l.gap⟩

/-- The copy of a body is read back as it was made. An alias that is a name keeps whole lexemes
whole, and the first characters of a lexeme change only behind an ellipsis, which is cut off from
anything. -/
theorem scan_copyBody (halias : IsName aliasName.toList) (body : String) :
    scanText (copyBody aliasName copied body) =
      ⟨copyRow aliasName copied none (scanText body).lexemes, (scanText body).trailer⟩ := by
  obtain ⟨hspells, htrailer⟩ := spells_scan body.toList
  rw [copyBody, scanText, String.toList_ofList]
  exact scan_charsOf (spells_copyRow halias hspells).1 htrailer

end Copy

/-! ## §4 Which bodies are copied -/

/-- A fragment is added as a copy if it references a variable or spreads a copy, and else by its own
definition. Everything that isolation keeps track of follows from these two cases. -/
theorem EntryFragments.add_cases (aliasName : String) (known : EntryFragments) (f : Fragment) :
    ((∃ l ∈ f.row, l.isVariable = true) ∨ ∃ path ∈ f.spreadPaths, path ∈ known.copied) ∧
      known.add aliasName f =
        { definitions := known.definitions.put (entryName aliasName f.flatName)
            (Fragment.define (entryName aliasName f.flatName)
              (copyBody aliasName known.copied f.body))
          copied := Names.add known.copied f.flatName
          referenced := Names.addAll known.referenced
            ((f.row.filter Lexeme.isVariable).map Lexeme.variableName) } ∨
    ((∀ l ∈ f.row, l.isVariable = false) ∧ ∀ path ∈ f.spreadPaths, path ∉ known.copied) ∧
      known.add aliasName f =
        { definitions := known.definitions.put f.flatName f.definition
          copied := known.copied
          referenced := Names.addAll known.referenced
            ((f.row.filter Lexeme.isVariable).map Lexeme.variableName) } := by
  -- The test of the definition, as a statement about lexemes and paths
  have hiff : (!((f.row.filter Lexeme.isVariable).map Lexeme.variableName).isEmpty ||
      f.spreadPaths.any (· ∈ known.copied)) = true ↔
      (∃ l ∈ f.row, l.isVariable = true) ∨ ∃ path ∈ f.spreadPaths, path ∈ known.copied := by
    simp
  rw [EntryFragments.add]
  dsimp only
  split
  · rename_i hcopied
    exact .inl ⟨hiff.1 hcopied, rfl⟩
  · rename_i hshared
    rw [hiff, not_or] at hshared
    refine .inr ⟨⟨fun l hl => ?_, fun path hpath hmem => hshared.2 ⟨path, hpath, hmem⟩⟩, rfl⟩
    exact Bool.eq_false_iff.2 fun hvariable => hshared.1 ⟨l, hl, hvariable⟩

end QueryWeave
