import QueryWeave.Proofs.Batch.Walk

/-!
# Response Keys Written Out

A field without an alias comes back under its own name, as though that name were written in front
of it as an alias. Selections in which every key at the top level is written out can be compared
key by key. Aliased selections are of this form; once the alias of their entry is taken off the
keys again, they are the selections they were made from, every key written out, as an entry
copies them.

- `writtenKeys_stripKeys`: aliased selections without their alias.
- `mem_spreads_writtenKeys`: writing keys out leaves the spreads alone.
-/

namespace QueryWeave

/-! ## §1 Readings of the keys -/

/-- Selections with every response key at the top level written out, `k` as `k:k`. -/
def writtenKeys (p : SelectionPoint) : List Lexeme → List Lexeme
  | [] => []
  | l :: rest =>
    (if p.isKey l && !rest.head?.any (Lexeme.isMark ':') then [l, colon, l.bare] else [l]) ++
      writtenKeys (p.advance l) rest

/-- A name without the alias of an entry in front of it, if it has one. -/
def Lexeme.stripAlias (aliasName : String) (l : Lexeme) : Lexeme :=
  if (entryName aliasName "").toList.isPrefixOf l.text then
    l.respell (l.text.drop (entryName aliasName "").toList.length)
  else l

/-- Selections with the alias of an entry taken off the response keys at the top level. -/
def stripKeys (aliasName : String) (p : SelectionPoint) : List Lexeme → List Lexeme
  | [] => []
  | l :: rest =>
    (if p.isKey l then l.stripAlias aliasName else l) :: stripKeys aliasName (p.advance l) rest

section Keys

variable {aliasName : String} {copied : List String}

theorem stripAlias_toEntryName (l : Lexeme) :
    (l.toEntryName aliasName).stripAlias aliasName = l := by
  have htext : (l.toEntryName aliasName).text = (entryName aliasName "").toList ++ l.text := by
    simp [Lexeme.toEntryName, Lexeme.respell, Lexeme.word, entryName]
  unfold Lexeme.stripAlias
  rw [htext, if_pos (by simp), List.drop_left]
  rfl

theorem stripKeys_append (p : SelectionPoint) (first second : List Lexeme) :
    stripKeys aliasName p (first ++ second) =
      stripKeys aliasName p first ++ stripKeys aliasName (p.behind first) second := by
  induction first generalizing p with
  | nil => rfl
  | cons l rest ih =>
    simp only [List.cons_append, stripKeys, ih]
    rfl

/-- A copy looks at what stands in front of it only to see whether that is an ellipsis. -/
theorem copyRow_before {before other : Option Lexeme}
    (h : before.any (fun b => b.kind = .ellipsis) = other.any fun b => b.kind = .ellipsis)
    (row : List Lexeme) :
    copyRow aliasName copied before row = copyRow aliasName copied other row := by
  cases row with
  | nil => rfl
  | cons l rest =>
    have hcopy : namesCopy copied before l = namesCopy copied other l := by
      simp only [namesCopy, h]
    rw [copyRow, copyRow, hcopy]

/-! ## §2 Taking the alias off

The keys of an entry are `alias_key: key` or `alias_key: name`. Taking the alias off, and writing
out the keys that have none, leads back to the selections of the operation with all their keys
written out. -/

/-- Helper: a copy changes nothing about a key that is written out, and goes on behind it as though
the key had been left bare. -/
private theorem copyRow_writtenOut {before : Option Lexeme} {l : Lexeme} (hkind : l.kind = .name)
    (hnot : namesCopy copied before l = false) (later : List Lexeme) :
    copyRow aliasName copied before (l :: colon :: l.bare :: later) =
      l :: colon :: l.bare :: copyRow aliasName copied (some l) later := by
  -- None of the three lexemes stands behind an ellipsis, so none names a copy
  have hcolonCopy : namesCopy copied (some l) colon = false := by simp [namesCopy, hkind]
  have hbareCopy : namesCopy copied (some colon) l.bare = false := by simp [namesCopy, colon]
  have hcolonVariable : colon.isVariable = false := by decide
  have hbareVariable : l.bare.isVariable = false := rfl
  have hlVariable : l.isVariable = false := by simp [Lexeme.isVariable, hkind]
  have hbehind := @copyRow_before aliasName copied (some l.bare) (some l)
    (by simp [Lexeme.bare, hkind]) later
  rw [copyRow, copyRow, copyRow, hlVariable, hnot, hcolonVariable, hcolonCopy, hbareVariable,
    hbareCopy, hbehind]
  rfl

/-- Helper: a colon behind a key stays where it is. -/
private theorem head_stripKeys {p q : SelectionPoint} (hclear : p.Clear) {rest : List Lexeme}
    {later : AliasedRow} (h : aliasRow aliasName copied p rest = some later)
    (hcolon : rest.head?.any (Lexeme.isMark ':') = true) :
    (stripKeys aliasName q later.row).head?.any (Lexeme.isMark ':') = true := by
  cases rest with
  | nil => cases hcolon
  | cons m more =>
    have hmark : m.isMark ':' = true := hcolon
    have hkind := Lexeme.isMark_iff.1 hmark
    -- A colon is neither renamed nor a key: it is kept
    obtain ⟨spelled, fields, behind, hstep, -, -, rfl⟩ := aliasRow_inversion hclear h
    cases hstep with
    | variableUse hvariable => rw [hkind] at hvariable; cases hvariable
    | copiedSpread hname => rw [hkind] at hname; cases hname
    | writtenKey hname => rw [hkind] at hname; cases hname
    | bareKey hname => rw [hkind] at hname; cases hname
    | kept =>
      rw [List.singleton_append, stripKeys, not_isKey q (by simp [hkind])]
      simpa using hmark

/-- Helper: the keys of one step, the alias taken off and written out, and what is behind them. -/
private theorem AliasStep.written {p q r : SelectionPoint} {l : Lexeme} {rest : List Lexeme}
    (hq : p.Agrees q) (hr : p.Agrees r) {spelled : List Lexeme} {fields : List ResponseField}
    (h : AliasStep aliasName copied p l rest.head? spelled fields) {stripped : List Lexeme}
    (hhead : rest.head?.any (Lexeme.isMark ':') = true →
      stripped.head?.any (Lexeme.isMark ':') = true) :
    ∃ renamed, (p.advance l).Agrees (r.behind renamed) ∧
      writtenKeys r (stripKeys aliasName q spelled ++ stripped) =
        renamed ++ writtenKeys (r.behind renamed) stripped ∧
      copyRow aliasName copied p.before (writtenKeys p (l :: rest)) =
        renamed ++ copyRow aliasName copied (some l) (writtenKeys (p.advance l) rest) := by
  cases h with
  | variableUse hkind =>
    -- A variable is no key: it keeps the name the entry gave it
    have hkind' : (l.toEntryVariable aliasName).kind = .variable := hkind
    refine ⟨[l.toEntryVariable aliasName], hr.advance rfl, ?_, ?_⟩
    · rw [stripKeys, not_isKey q (by simp [hkind'])]
      simp [stripKeys, writtenKeys,
        not_isKey r (l := l.toEntryVariable aliasName) (by simp [hkind']),
        SelectionPoint.behind]
    · rw [writtenKeys, not_isKey p (by simp [hkind])]
      simp [copyRow, Lexeme.isVariable, hkind]
  | copiedSpread hkind hcopied hbefore hdepth =>
    -- The name of a copied fragment stands below the top level, where no key is written out
    have hqDepth : q.depth ≠ 0 := hq.depth ▸ hdepth
    have hrDepth : r.depth ≠ 0 := hr.depth ▸ hdepth
    refine ⟨[l.toEntryName aliasName], hr.advance rfl, ?_, ?_⟩
    · rw [stripKeys, not_isKey_of_depth hqDepth]
      simp [stripKeys, writtenKeys, not_isKey_of_depth hrDepth, SelectionPoint.behind]
    · rw [writtenKeys, not_isKey_of_depth hdepth]
      simp [copyRow, Lexeme.isVariable, namesCopy, Lexeme.isName, hkind, hcopied, hbefore]
  | writtenKey hkind hkey hnot hnext =>
    -- The key goes back to what it was, and its colon is there already
    have hqKey : q.isKey (l.toEntryName aliasName) = true := (isKey_congr hq rfl).trans hkey
    have hrKey : r.isKey l = true := (isKey_congr hr rfl).trans hkey
    refine ⟨[l], hr.advance rfl, ?_, ?_⟩
    · rw [stripKeys, hqKey]
      simp [stripKeys, stripAlias_toEntryName, writtenKeys, hrKey, hhead hnext,
        SelectionPoint.behind]
    · rw [writtenKeys, hkey, hnext]
      simp [copyRow, Lexeme.isVariable, hkind, hnot]
  | bareKey hkind hkey hnot hnext =>
    -- The alias, a colon and the bare name: without the alias, the key written out
    have hdepth := depth_of_isKey hkey
    have hqKey : q.isKey (l.toEntryName aliasName) = true := (isKey_congr hq rfl).trans hkey
    have hrKey : r.isKey l = true := (isKey_congr hr rfl).trans hkey
    have hcolonKind : colon.kind ≠ .name := by decide
    have hqBare := not_isKey_behind_colon (q := q) (hq.depth ▸ hdepth)
      (show (l.toEntryName aliasName).kind = .name from hkind) l.bare
    have hrBare := not_isKey_behind_colon (q := r) (hr.depth ▸ hdepth) hkind l.bare
    refine ⟨[l, colon, l.bare], ?_, ?_, ?_⟩
    · -- The walk behind the three lexemes agrees with the walk behind the bare name
      have hstep : AliasStep aliasName copied p l rest.head?
          [l.toEntryName aliasName, colon, l.bare] [⟨entryName aliasName l.word, l.word⟩] :=
        .bareKey hkind hkey hnot hnext
      have hkeyBehind : (r.advance (l.toEntryName aliasName)).Agrees (r.advance l) :=
        (SelectionPoint.agrees_refl r).advance rfl
      exact (hstep.walk hr).2.2.trans ((hkeyBehind.advance rfl).advance rfl)
    · simp [stripKeys, hqKey, not_isKey _ hcolonKind, hqBare, stripAlias_toEntryName, writtenKeys,
        hrKey, hrBare, SelectionPoint.behind, show colon.isMark ':' = true from rfl]
    · rw [writtenKeys, hkey, hnext]
      exact copyRow_writtenOut hkind hnot _
  | kept hkind hkey hnot hdots =>
    have hqKey : q.isKey l = false := (isKey_congr hq rfl).trans hkey
    have hrKey : r.isKey l = false := (isKey_congr hr rfl).trans hkey
    refine ⟨[l], hr.advance rfl, ?_, ?_⟩
    · rw [stripKeys, hqKey]
      simp [stripKeys, writtenKeys, hrKey, SelectionPoint.behind]
    · rw [writtenKeys, hkey]
      simp [copyRow, Lexeme.isVariable, hkind, hnot]

/-- The aliased selections of an entry, the alias taken off their keys, are an entry's copy of the
selections with their keys written out. This is what makes an entry comparable with its operation:
on both sides keys are written out, and variables and spreads are left to differ. -/
theorem writtenKeys_stripKeys {p q r : SelectionPoint} {row : List Lexeme} {aliased : AliasedRow}
    (hclear : p.Clear) (hq : p.Agrees q) (hr : p.Agrees r)
    (h : aliasRow aliasName copied p row = some aliased) :
    writtenKeys r (stripKeys aliasName q aliased.row) =
      copyRow aliasName copied p.before (writtenKeys p row) := by
  induction row generalizing p q r aliased with
  | nil =>
    cases h
    rfl
  | cons l rest ih =>
    obtain ⟨spelled, fields, later, hstep, hlater, hclear', rfl⟩ := aliasRow_inversion hclear h
    -- Three walks go on side by side: over the row, over the aliased row, over the written keys
    have hagrees := (hstep.walk hq).2.2
    obtain ⟨renamed, hbehind, hstripped, hcopied⟩ :=
      @AliasStep.written _ _ p q r l rest hq hr _ _ hstep
        (stripKeys aliasName (q.behind spelled) later.row) (head_stripKeys hclear' hlater)
    rw [stripKeys_append, hstripped, hcopied, ih hclear' hagrees hbehind hlater]
    rfl

end Keys

/-! ## §3 What writing keys out leaves alone -/

theorem writtenKeys_congr {p q : SelectionPoint} (h : p.Agrees q) (row : List Lexeme) :
    writtenKeys p row = writtenKeys q row := by
  induction row generalizing p q with
  | nil => rfl
  | cons l rest ih => rw [writtenKeys, writtenKeys, isKey_congr h rfl, ih (h.advance rfl)]

/-- A gap in front of selections stays in front when their keys are written out. -/
theorem writtenKeys_indent (gap : List Char) (s : Scan) :
    writtenKeys .start (s.indent gap).lexemes =
      (Scan.indent gap ⟨writtenKeys .start s.lexemes, s.trailer⟩).lexemes := by
  obtain ⟨row, trailer⟩ := s
  cases row with
  | nil => rfl
  | cons l rest =>
    show writtenKeys .start ({ l with gap := gap ++ l.gap } :: rest) = _
    have hrest := @writtenKeys_congr
      (SelectionPoint.start.advance { l with gap := gap ++ l.gap })
      (SelectionPoint.start.advance l) ((SelectionPoint.agrees_refl _).advance rfl) rest
    -- A key is told by kinds and by the point of the walk, not by gaps
    have hkey : SelectionPoint.start.isKey { l with gap := gap ++ l.gap } =
        SelectionPoint.start.isKey l := rfl
    rw [writtenKeys, hkey, hrest]
    show _ = (Scan.indent gap ⟨writtenKeys .start (l :: rest), trailer⟩).lexemes
    rw [writtenKeys]
    cases SelectionPoint.start.isKey l && !rest.head?.any (Lexeme.isMark ':') <;> rfl

/-- The first lexeme stays in front. -/
theorem writtenKeys_head (p : SelectionPoint) (l : Lexeme) (rest : List Lexeme) :
    ∃ later, writtenKeys p (l :: rest) = l :: later := by
  rw [writtenKeys]
  split
  · exact ⟨_, rfl⟩
  · exact ⟨_, rfl⟩

theorem mem_writtenKeys_of_isVariable {p : SelectionPoint} {row : List Lexeme} {l : Lexeme}
    (hl : l ∈ writtenKeys p row) (hvariable : l.isVariable = true) : l ∈ row := by
  induction row generalizing p with
  | nil => cases hl
  | cons m rest ih =>
    rw [writtenKeys] at hl
    rcases List.mem_append.1 hl with hhere | hlater
    · split at hhere
      · -- Of a key written out only the key itself was there before
        simp only [List.mem_cons, List.not_mem_nil, or_false] at hhere
        rcases hhere with rfl | rfl | rfl
        · exact List.mem_cons_self
        · exact absurd hvariable (by decide)
        · cases hvariable
      · rw [List.mem_singleton] at hhere
        exact hhere ▸ List.mem_cons_self
    · exact List.mem_cons_of_mem _ (ih hlater)

/-- Helper: below the top level nothing is written out. -/
private theorem writtenKeys_below {p : SelectionPoint} (hdepth : p.depth ≠ 0) (l : Lexeme)
    (rest : List Lexeme) :
    writtenKeys p (l :: rest) = l :: writtenKeys (p.advance l) rest := by
  rw [writtenKeys, not_isKey_of_depth hdepth]
  rfl

/-- Helper: a lexeme that is no bracket stays below the top level. -/
private theorem depth_advance_of_not_bracket {p : SelectionPoint} (hdepth : p.depth ≠ 0)
    {l : Lexeme} (hkind : ∀ mark, l.kind ≠ .punctuator mark) : (p.advance l).depth ≠ 0 := by
  simpa [SelectionPoint.advance, not_bracket hkind] using hdepth

/-- Helper: segments of paths are looked for below the top level, where nothing is written out. -/
private theorem takeSegments_writtenKeys {p : SelectionPoint} (hdepth : p.depth ≠ 0)
    {row : List Lexeme} (h : takeSegments row = ([], row)) :
    takeSegments (writtenKeys p row) = ([], writtenKeys p row) := by
  match row, h with
  | [], _ => rfl
  | dot :: rest, h =>
    rw [writtenKeys_below hdepth]
    by_cases hdot : dot.isMark '.' = true
    · cases rest with
      | nil => rfl
      | cons segment more =>
        have hkind := Lexeme.isMark_iff.1 hdot
        have hcontinues := continuesPath_of_takeSegments h
        obtain ⟨later, hlater⟩ := writtenKeys_head (p.advance dot) segment more
        rw [hlater, takeSegments, if_neg (by simp [hcontinues])]
    · -- Whatever comes second, the first lexeme is no dot
      cases hrest : writtenKeys (p.advance dot) rest with
      | nil => rfl
      | cons next more =>
        rw [takeSegments, if_neg]
        simp [continuesPath, hdot]

/-- Helper: a lexeme that begins no spread begins none with the keys written out. -/
private theorem spreads_writtenKeys_single (p : SelectionPoint) {l : Lexeme} {rest : List Lexeme}
    (h : l.kind = .ellipsis → rest.head?.any beginsPath = false) :
    spreads (writtenKeys p (l :: rest)) = spreads (writtenKeys (p.advance l) rest) := by
  rw [writtenKeys]
  split
  · -- A key, a colon and a name: none of them begins a spread
    rename_i hkey
    have hkind : l.kind ≠ .ellipsis := by
      simp only [SelectionPoint.isKey, Bool.and_eq_true, Lexeme.isName, decide_eq_true_eq] at hkey
      simp [hkey.1.1]
    have hcolon : colon.kind ≠ .ellipsis := by decide
    have hbare : l.bare.kind ≠ .ellipsis := by simp [Lexeme.bare]
    show spreads (l :: colon :: l.bare :: writtenKeys (p.advance l) rest) = _
    rw [spreads_cons_single fun heq => absurd heq hkind,
      spreads_cons_single fun heq => absurd heq hcolon,
      spreads_cons_single fun heq => absurd heq hbare]
  · apply spreads_cons_single
    intro hdots
    cases rest with
    | nil => rfl
    | cons next more =>
      obtain ⟨later, hlater⟩ := writtenKeys_head (p.advance l) next more
      rw [hlater]
      exact h hdots

/-- Writing the keys out adds no spread, as long as none stands at the top level. What is added
stands at the top level, and it is a colon and a name: neither begins a path. -/
theorem mem_spreads_writtenKeys {p : SelectionPoint} {row : List Lexeme}
    (hflat : FlatSpreads row) (hplain : plainTop p row = true) {s : Spread}
    (hs : s ∈ spreads (writtenKeys p row)) : s ∈ spreads row := by
  induction row using pieces_induction generalizing p with
  | nil => exact hs
  | single l rest hsingle ih =>
    rw [spreads_writtenKeys_single p hsingle] at hs
    rw [spreads_cons_single hsingle]
    simp only [plainTop, Bool.and_eq_true] at hplain
    exact ih (hflat.behind_single hsingle) hplain.2 hs
  | spread dots head rest hdots hhead ih =>
    obtain ⟨hend, hrest⟩ := hflat.behind_spread hdots hhead
    have hname := kind_of_beginsPath hhead
    -- The walk passes the ellipsis and the name of the spread below the top level
    simp only [plainTop, hdots, Bool.and_eq_true, Bool.not_eq_true', Bool.and_eq_false_iff,
      decide_eq_false_iff_not] at hplain
    have hdepth : p.depth ≠ 0 := by simpa using hplain.1
    have hdepth' := depth_advance_of_not_bracket hdepth (l := dots) (by simp [hdots])
    have hdepth'' := depth_advance_of_not_bracket hdepth' (l := head) (by simp [hname])
    -- So the spread stands as it stood, and the rest is left to the hypothesis
    rw [writtenKeys_below hdepth, writtenKeys_below hdepth', spreads_cons_spread hdots hhead,
      takeSegments_writtenKeys hdepth'' hend] at hs
    rw [hend] at ih
    rw [spreads_cons_spread hdots hhead, hend]
    rcases List.mem_cons.1 hs with rfl | hs
    · exact List.mem_cons_self
    · exact List.mem_cons_of_mem _ (ih hrest hplain.2.2 hs)

end QueryWeave
