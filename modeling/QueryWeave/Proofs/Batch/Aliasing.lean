import QueryWeave.Proofs.Batch.Answers
import QueryWeave.Proofs.Batch.Fields
import QueryWeave.Proofs.Batch.Keys
import QueryWeave.Proofs.Batch.Variables
import QueryWeave.Proofs.Operation.Parts

/-!
# What Aliasing Changes

The walk along selections tells response keys from all other names by a depth and by the last
lexeme at the top level. Here it is held against the grammar: a body is a row of fields and
fragments, and of each field the walk finds the one name that is its key.

- `TopSelection`: selections at the top level of a body.
- `TopSelection.forEntry`: what they are to become.
- `aliasRow_tops`: the walk along the selections of a body.
- `aliasingLaws_of_isBody`: what aliasing makes of a body.
- `Session.MergedFrom.selections_eq`: the selections of an entry, in every merge.
-/

namespace QueryWeave

/-! ## §1 Selections at the top level

A body is a row of selections, and the walk stops only at their beginnings: at the keys of fields
and at the ellipses of fragments. What is behind a key is passed (`Passed`), so each selection is
one step here. -/

/-- A selection at the top level of a body, cut where aliasing looks at it: at the key, and at the
ellipsis of a fragment. What is behind is kept as one row. -/
inductive TopSelection where
  /-- A field without an alias, and what is behind its name. -/
  | bare (name : Lexeme) (behind : List Lexeme)
  /-- A field with an alias, and what is behind its name. -/
  | aliased (key mark name : Lexeme) (behind : List Lexeme)
  /-- A spread or an inline fragment, and what is behind its ellipsis. -/
  | fragment (dots : Lexeme) (behind : List Lexeme)

/-- The lexemes of a row for an entry: variables go by the names of the entry, spreads of copied
fragments name the copies, and all else is as it was. -/
def renamedRow (aliasName : String) (copied : List String) (row : List Lexeme) : List Lexeme :=
  Piece.rowOf ((pieces row).map (Piece.copy aliasName copied))

namespace TopSelection

/-- The lexemes of a selection. -/
def row : TopSelection → List Lexeme
  | .bare name behind => name :: behind
  | .aliased key mark name behind => key :: mark :: name :: behind
  | .fragment dots behind => dots :: behind

/-- Whether a selection is what it is said to be. The parts are derived by the grammar, so a body
may be read as a row of selections in any layout. -/
inductive Derived : TopSelection → Prop
  | bare {name : Lexeme} {behind : List Lexeme} (hfield : Derives .field (name :: behind)) :
      Derived (.bare name behind)
  | aliased {key mark name : Lexeme} {behind : List Lexeme} (hkey : key.kind = .name)
      (hmark : mark.isMark ':' = true) (hfield : Derives .field (name :: behind)) :
      Derived (.aliased key mark name behind)
  | fragment {dots : Lexeme} {behind : List Lexeme} (hdots : dots.kind = .ellipsis)
      (hselection : Derives .selection (dots :: behind)) : Derived (.fragment dots behind)

def isFragment : TopSelection → Bool
  | .fragment _ _ => true
  | _ => false

/-- The response key of a field. -/
def key? : TopSelection → Option String
  | .bare name _ => some name.word
  | .aliased key _ _ _ => some key.word
  | .fragment _ _ => none

/-- The field of an entry that a selection stands for. -/
def field? (aliasName : String) (top : TopSelection) : Option ResponseField :=
  top.key?.map fun key => ⟨entryName aliasName key, key⟩

/-- A selection as an entry has it: the response key goes by the name of the entry, and where there
was no alias, a colon and the name follow it. Fragments are kept, though no entry has any. -/
def forEntry (aliasName : String) (copied : List String) : TopSelection → List Lexeme
  | .bare name behind =>
    name.toEntryName aliasName :: colon :: name.bare :: renamedRow aliasName copied behind
  | .aliased key mark name behind =>
    key.toEntryName aliasName :: mark :: name :: renamedRow aliasName copied behind
  | .fragment dots behind => dots :: behind

/-- What the walk makes of a selection, copying lexeme by lexeme behind the name of the field. -/
def walked (aliasName : String) (copied : List String) : TopSelection → List Lexeme
  | .bare name behind =>
    name.toEntryName aliasName :: colon :: name.bare :: copyRow aliasName copied (some name) behind
  | .aliased key mark name behind =>
    key.toEntryName aliasName :: mark :: name :: copyRow aliasName copied (some name) behind
  | .fragment dots behind => dots :: behind

end TopSelection

/-- The text of selections that name fragments by single names: no dot stands by itself, as it would
in a path. Resolution writes spreads so, by flat name. -/
structure IsBody (cs : List Char) : Prop where
  derives : Derives .selections (scan cs).lexemes
  single : ∀ l ∈ (scan cs).lexemes, l.isMark '.' = false

/-- Every body is a row of fields and fragments. The row of selections is taken apart from the
front, and each selection is put together again from what it was derived by. -/
theorem exists_tops {row : List Lexeme} (h : Derives .selections row) :
    ∃ tops : List TopSelection, (∀ top ∈ tops, top.Derived) ∧
      row = tops.flatMap TopSelection.row := by
  generalize hphrase : Phrase.selections = phrase at h
  induction h with
  | selectionsNil => exact ⟨[], by simp, rfl⟩
  | @selectionsCons first others hfirst _ _ ih =>
    obtain ⟨tops, htops, rfl⟩ := ih rfl
    obtain ⟨top, htop, rfl⟩ : ∃ top : TopSelection, top.Derived ∧ first = top.row := by
      -- A selection is told by its first lexemes: a name, a name and a colon, or an ellipsis
      cases hfirst with
      | bareField hfield =>
        cases hfield with
        | field hname harguments hdirectives hselections =>
          exact ⟨.bare _ _, .bare (.field hname harguments hdirectives hselections), rfl⟩
      | aliasedField hkey hmark hfield =>
        cases hfield with
        | field hname harguments hdirectives hselections =>
          exact ⟨.aliased _ _ _ _,
            .aliased hkey hmark (.field hname harguments hdirectives hselections), rfl⟩
      | spread hdots hhead hsegments hdirectives =>
        exact ⟨.fragment _ _, .fragment hdots (.spread hdots hhead hsegments hdirectives), rfl⟩
      | inlineFragment hdots hcondition hdirectives hselections =>
        exact ⟨.fragment _ _,
          .fragment hdots (.inlineFragment hdots hcondition hdirectives hselections), rfl⟩
    exact ⟨top :: tops, List.forall_mem_cons.2 ⟨htop, htops⟩, rfl⟩
  | _ => cases hphrase

/-! ## §2 The walk along a body -/

/-- Helper: a row does not begin with a colon. -/
private theorem head_append {first second : List Lexeme}
    (hfirst : first.head?.any (Lexeme.isMark ':') = false)
    (hsecond : second.head?.any (Lexeme.isMark ':') = false) :
    (first ++ second).head?.any (Lexeme.isMark ':') = false := by
  cases first with
  | nil => exact hsecond
  | cons l rest => exact hfirst

private theorem not_colon_of_isMark {l : Lexeme} {mark : Char} (h : l.isMark mark = true)
    (hmark : mark ≠ ':') : l.isMark ':' = false := by
  simp [Lexeme.isMark, Lexeme.isMark_iff.1 h, hmark]

/-- Helper: no colon follows the name of a field. -/
private theorem Derives.head_behind {name : Lexeme} {behind : List Lexeme}
    (h : Derives .field (name :: behind)) : behind.head?.any (Lexeme.isMark ':') = false := by
  cases h with
  | field _ harguments hdirectives hselections =>
    -- What follows the name is an argument list, a directive or a brace, if anything
    apply head_append
    · cases harguments with
      | noArguments => rfl
      | arguments hopener => exact not_colon_of_isMark hopener (by decide)
    apply head_append
    · cases hdirectives with
      | directivesNil => rfl
      | directivesCons hsign => exact not_colon_of_isMark hsign (by decide)
    · cases hselections with
      | noSubselection => rfl
      | subselection hselections =>
        cases hselections with
        | selectionSet hopener => exact not_colon_of_isMark hopener (by decide)

theorem Derives.field_name {name : Lexeme} {behind : List Lexeme}
    (h : Derives .field (name :: behind)) : name.kind = .name := by
  cases h with
  | field hname => exact hname

/-- Without dots, spreads are written by single names. This is what lets the grammar's readings be
used where resolution has written the text: it leaves no dots. -/
theorem flatSpreads_of_single {row : List Lexeme} (h : ∀ l ∈ row, l.isMark '.' = false) :
    FlatSpreads row := by
  intro s hs
  by_contra hsegments
  obtain ⟨segment, hsegment⟩ := List.exists_mem_of_ne_nil _ hsegments
  have hcontinues := (formed_of_mem_spreads hs).segments segment hsegment
  simp only [continuesPath, Bool.and_eq_true] at hcontinues
  -- The dot of a segment stands in the row
  have hdot : segment.1 ∈ row := by
    rw [← rowOf_pieces row]
    obtain ⟨piece, hpiece, hspread⟩ := List.mem_filterMap.1 hs
    cases piece with
    | single => cases hspread
    | spread =>
      cases hspread
      refine List.mem_flatMap.2 ⟨.spread s, hpiece, ?_⟩
      have hmem : segment.1 ∈ Spread.segmentRow s.segments :=
        List.mem_flatMap.2 ⟨segment, hsegment, List.mem_cons_self⟩
      exact List.mem_cons_of_mem _ (List.mem_cons_of_mem _ hmem)
  rw [h _ hdot] at hcontinues
  exact absurd hcontinues.1.1.1 (by decide)

section Tops

variable {aliasName : String} {copied : List String}

/-- Helper: behind a name, a copy goes piece by piece. -/
private theorem copyRow_behind (hon : "on" ∉ copied) {name : Lexeme} (hname : name.kind = .name)
    {row : List Lexeme} (hsingle : ∀ l ∈ row, l.isMark '.' = false) :
    copyRow aliasName copied (some name) row = renamedRow aliasName copied row := by
  have hbefore := @copyRow_before aliasName copied (some name) none (by simp [hname]) row
  rw [hbefore, copyRow_eq (flatSpreads_of_single hsingle) hon]
  rfl

/-- The walk makes of a selection what is to become of it. It copies lexeme by lexeme, and without
dots this is the same as piece by piece. -/
theorem TopSelection.Derived.walked_eq {top : TopSelection} (h : top.Derived)
    (hon : "on" ∉ copied) (hsingle : ∀ l ∈ top.row, l.isMark '.' = false) :
    top.walked aliasName copied = top.forEntry aliasName copied := by
  -- The key and the name behind a colon are spelled by the walk itself; the rest is a copy
  cases h with
  | @bare name behind hderives =>
    have hbehind := @copyRow_behind aliasName copied hon name hderives.field_name behind
      fun l hl => hsingle l (List.mem_cons_of_mem _ hl)
    rw [TopSelection.walked, hbehind]
    rfl
  | @aliased key mark name behind _ _ hderives =>
    have hbehind := @copyRow_behind aliasName copied hon name hderives.field_name behind
      fun l hl => hsingle l
        (List.mem_cons_of_mem _ (List.mem_cons_of_mem _ (List.mem_cons_of_mem _ hl)))
    rw [TopSelection.walked, hbehind]
    rfl
  | fragment => rfl

/-- A field is its key, and what the walk passes behind it. The cases of a field are told apart here
and nowhere else: behind the key, a field with an alias and one without are the same to the walk, up
to the colon that the key looks for. -/
theorem TopSelection.Derived.key {top : TopSelection} (h : top.Derived)
    (hfield : top.isFragment = false) :
    ∃ key tail, top.row = key :: tail ∧ key.kind = .name ∧ top.key? = some key.word ∧
      (∀ p : SelectionPoint, p.depth = 0 → Passed (p.advance key) tail) ∧
      ∀ rest : List Lexeme, rest.head?.any (Lexeme.isMark ':') = false →
        top.walked aliasName copied =
          (SelectionRole.responseKey ((tail ++ rest).head?.any (Lexeme.isMark ':'))).spell
            aliasName key ++ copyRow aliasName copied (some key) tail := by
  cases h with
  | @bare name behind hderives =>
    -- The name is the key, and no colon follows it
    have hname := hderives.field_name
    refine ⟨name, behind, rfl, hname, rfl,
      fun p hp => hderives.passed_field (SelectionPoint.depth_advance_name hp hname),
      fun rest hrest => ?_⟩
    rw [head_append hderives.head_behind hrest]
    rfl
  | @aliased key mark name behind hkey hmark hderives =>
    have hname := hderives.field_name
    have hkind := Lexeme.isMark_iff.1 hmark
    refine ⟨key, mark :: name :: behind, rfl, hkey, rfl, fun p hp => ?_, fun rest _ => ?_⟩
    · -- The colon keeps the walk from taking the name for a key
      have hpKey := SelectionPoint.depth_advance_name hp hkey
      exact passed_announced hpKey (by simp [Lexeme.announces, hmark]) hname
        fun q hq => hderives.passed_field hq
    · -- The colon shows that there is an alias already
      have hmarked : (mark :: name :: behind ++ rest).head?.any (Lexeme.isMark ':') = true := hmark
      -- Neither the colon nor the name behind it is touched by a copy
      have hcopy : copyRow aliasName copied (some key) (mark :: name :: behind) =
          mark :: name :: copyRow aliasName copied (some name) behind := by
        simp [copyRow, Lexeme.isVariable, namesCopy, hkey, hname, hkind]
      rw [hmarked, hcopy]
      rfl
  | fragment => cases hfield

/-- The walk along a field finds its key and copies what follows. What is behind the field is left
to the walk from the point behind it, so a body is walked field by field. -/
theorem TopSelection.Derived.aliasRow {top : TopSelection} (h : top.Derived)
    (hfield : top.isFragment = false) {p : SelectionPoint} (hp : p.Fresh) {rest : List Lexeme}
    (hrest : rest.head?.any (Lexeme.isMark ':') = false) :
    aliasRow aliasName copied p (top.row ++ rest) =
        (aliasRow aliasName copied (p.behind top.row) rest).map
          (AliasedRow.append ⟨top.walked aliasName copied, (top.field? aliasName).toList⟩) ∧
      keysApart p (top.row ++ rest) = keysApart (p.behind top.row) rest := by
  obtain ⟨key, tail, hrow, hkind, hkey, htail, hspelled⟩ :=
    @TopSelection.Derived.key aliasName copied top h hfield
  have hpassed := htail p hp.depth
  -- In front of the key stands neither what blocks it, nor an ellipsis, nor a number
  have hisKey := hp.isKey hkind
  have hbefore := hp.before_any .ellipsis (by simp) (by simp)
  have hnumber := hp.before_any .other (by simp) (by simp)
  have hrole : p.role copied key (tail ++ rest).head? =
      .responseKey ((tail ++ rest).head?.any (Lexeme.isMark ':')) := by
    unfold SelectionPoint.isKey at hisKey
    simp [SelectionPoint.role, Lexeme.isVariable, namesCopy, hkind, hbefore, hisKey]
  have hfieldRow : (top.field? aliasName).toList = [⟨entryName aliasName key.word, key.word⟩] := by
    rw [TopSelection.field?, hkey]
    rfl
  rw [hrow, List.cons_append]
  constructor
  · rw [QueryWeave.aliasRow, hrole, if_neg (by simp), hpassed.aliasRow, Option.map_map,
      hspelled rest hrest, hfieldRow]
    congr 1
    funext later
    simp [AliasedRow.append, SelectionRole.field?, SelectionPoint.advance]
  · rw [QueryWeave.keysApart, hpassed.keysApart, hnumber, Bool.and_false]
    rfl

/-- Behind a field a selection may begin. -/
theorem TopSelection.Derived.fresh_behind {top : TopSelection} (h : top.Derived)
    (hfield : top.isFragment = false) {p : SelectionPoint} (hp : p.depth = 0) :
    (p.behind top.row).Fresh := by
  cases h with
  | bare hderives =>
    exact SelectionPoint.fresh_behind (hderives.depth_behind hp) (by simp [TopSelection.row])
      hderives.endsField
  | @aliased key mark name behind hkey hmark hderives =>
    have hselection : Derives .selection (key :: mark :: name :: behind) :=
      .aliasedField hkey hmark hderives
    -- The last lexeme is that of the field behind the alias
    apply SelectionPoint.fresh_behind (hselection.depth_behind hp) (by simp)
    intro l (hl : l ∈ (key :: mark :: name :: behind).getLast?)
    apply hderives.endsField l
    rwa [List.getLast?_cons_of_ne_nil (by simp), List.getLast?_cons_of_ne_nil (by simp)] at hl
  | fragment => cases hfield

/-- Helper: no selection begins with a colon. -/
private theorem head_tops {tops : List TopSelection} (htops : ∀ top ∈ tops, top.Derived) :
    (tops.flatMap TopSelection.row).head?.any (Lexeme.isMark ':') = false := by
  cases tops with
  | nil => rfl
  | cons top rest =>
    have hnot : ∀ {l : Lexeme}, (∀ mark, l.kind ≠ .punctuator mark) → l.isMark ':' = false :=
      fun hkind => by simp [Lexeme.isMark, hkind]
    cases htops top List.mem_cons_self with
    | bare hderives => exact hnot (by simp [hderives.field_name])
    | aliased hkey => exact hnot (by simp [hkey])
    | fragment hdots => exact hnot (by simp [hdots])

/-- The walk along the selections of a body fails at the first fragment. If there is none, it finds
the fields, and no key touches a number. -/
theorem aliasRow_tops {tops : List TopSelection} (htops : ∀ top ∈ tops, top.Derived)
    {p : SelectionPoint} (hp : p.Fresh) :
    ((∃ top ∈ tops, top.isFragment = true) ∧
        aliasRow aliasName copied p (tops.flatMap TopSelection.row) = none) ∨
      ((∀ top ∈ tops, top.isFragment = false) ∧
        aliasRow aliasName copied p (tops.flatMap TopSelection.row) =
          some ⟨tops.flatMap (TopSelection.walked aliasName copied),
            tops.filterMap (TopSelection.field? aliasName)⟩ ∧
        keysApart p (tops.flatMap TopSelection.row) = true) := by
  -- From one selection to the next, the walk stands where a selection may begin
  induction tops generalizing p with
  | nil => exact .inr ⟨by simp, rfl, rfl⟩
  | cons top rest ih =>
    obtain ⟨htop, hrest⟩ := List.forall_mem_cons.1 htops
    rw [List.flatMap_cons]
    cases hfragment : top.isFragment with
    | true =>
      -- Its ellipsis stands at the top level
      cases htop with
      | @fragment dots behind hdots =>
        refine .inl ⟨⟨_, List.mem_cons_self, hfragment⟩, ?_⟩
        rw [TopSelection.row, List.cons_append, aliasRow, if_pos]
        simp [SelectionPoint.role, Lexeme.isVariable, hdots, hp.depth]
      | _ => cases hfragment
    | false =>
      obtain ⟨hwalk, hapart⟩ := @TopSelection.Derived.aliasRow aliasName copied top htop hfragment
        p hp _ (head_tops hrest)
      rw [hwalk, hapart]
      rcases ih hrest (htop.fresh_behind hfragment hp.depth) with
        ⟨⟨other, hother, hlater⟩, hnone⟩ | ⟨hfields, hsome, hapartRest⟩
      · exact .inl ⟨⟨other, List.mem_cons_of_mem _ hother, hlater⟩, by rw [hnone]; rfl⟩
      · refine .inr ⟨List.forall_mem_cons.2 ⟨hfragment, hfields⟩, ?_, hapartRest⟩
        rw [hsome, List.flatMap_cons]
        cases hfield : top.field? aliasName <;> simp [AliasedRow.append, hfield]

end Tops

/-! ## §3 What aliasing makes of a body

The walk is taken selection by selection, from a point in front of which nothing announces a name.
Every selection leads back to such a point, which is what the induction over the body keeps. -/

/-- An operation whose selections cannot be aliased is refused for a fragment at the top level. -/
theorem Entry.ofCompiled_refused_iff {lib : Library} {aliasName : String} {compiled : Compiled}
    {outline : Outline} {known : EntryFragments}
    (houtline : Outline.ofText? compiled.operation = some outline)
    (hknown : lib.isolate aliasName compiled.fragmentNames = .ok known) (ticket : Nat)
    (batchKey : String) (values : JsonObject) :
    ofCompiled lib ticket aliasName batchKey compiled values =
        .error (.topLevelFragment aliasName batchKey) ↔
      aliasSelections aliasName known.copied (Text.dropBlank outline.selectionChars) = none := by
  unfold ofCompiled
  rw [houtline, hknown]
  -- Outline and isolation have succeeded, so nothing but aliasing is left to fail
  cases hselections : aliasSelections aliasName known.copied
      (Text.dropBlank outline.selectionChars) with
  | none =>
    simp [Except.mapError, hselections, bind, Except.bind, throw, throwThe, MonadExceptOf.throw]
  | some aliased => simp [Except.mapError, hselections, bind, Except.bind, pure, Except.pure]

theorem aliasSelections_eq (aliasName : String) (copied : List String) (cs : List Char) :
    aliasSelections aliasName copied cs =
      (aliasRow aliasName copied .start (scan cs).lexemes).map fun aliased =>
        (Lexeme.charsOf aliased.row ++ (scan cs).trailer, aliased.fields) := rfl

/-- The text that aliasing gives for a body, if no fragment called `on` is copied. An alias that is
a name keeps apart what was apart, and then the text is read as the row that it was made of. -/
theorem text_of_isBody {aliasName : String} {copied : List String} {cs : List Char}
    (hbody : IsBody cs) {tops : List TopSelection} (htops : ∀ top ∈ tops, top.Derived)
    (hrow : (scan cs).lexemes = tops.flatMap TopSelection.row) (hon : "on" ∉ copied)
    {text : List Char} {fields : List ResponseField}
    (haliased : aliasSelections aliasName copied cs = some (text, fields)) :
    (text = Lexeme.charsOf (tops.flatMap (TopSelection.forEntry aliasName copied)) ++
        (scan cs).trailer ∧ fields = tops.filterMap (TopSelection.field? aliasName)) ∧
      (IsName aliasName.toList →
        scan text = ⟨tops.flatMap (TopSelection.forEntry aliasName copied),
          (scan cs).trailer⟩) := by
  obtain ⟨hspells, htrailer⟩ := spells_scan cs
  have hwalk := @aliasRow_tops aliasName copied tops htops .start fresh_start
  rw [← hrow] at hwalk
  rw [aliasSelections_eq] at haliased
  rcases hwalk with ⟨-, hnone⟩ | ⟨-, hsome, hapart⟩
  · rw [hnone] at haliased
    cases haliased
  · -- Without dots, copying lexeme by lexeme is renaming piece by piece
    have hwalked : tops.flatMap (TopSelection.walked aliasName copied) =
        tops.flatMap (TopSelection.forEntry aliasName copied) := by
      apply List.flatMap_congr
      intro top htop
      apply (htops top htop).walked_eq hon
      intro l hl
      apply hbody.single l
      rw [hrow]
      exact List.mem_flatMap.2 ⟨top, htop, hl⟩
    rw [hwalked] at hsome
    rw [hsome] at haliased
    obtain ⟨rfl, rfl⟩ := Prod.mk.inj (Option.some.inj haliased)
    -- No key touches a number, and so the text is read as it was spelled
    exact ⟨⟨rfl, rfl⟩, fun halias =>
      scan_charsOf (spells_aliasRow halias hsome hspells hapart) htrailer⟩

/-- What aliasing makes of a body with certain selections. It is told for any way to read the body
as a row of selections, and for any set of copied fragments: when it fails, which fields it finds,
and what the text is, byte for byte and as it is read again. -/
structure AliasingLaws (aliasName : String) (copied : List String) (cs : List Char)
    (tops : List TopSelection) : Prop where
  /-- It fails if and only if one of the selections is a fragment. -/
  refused_iff : aliasSelections aliasName copied cs = none ↔ ∃ top ∈ tops, top.isFragment = true
  /-- And this is the failure of an operation with such selections. -/
  error_iff : ∀ (lib : Library) (ticket : Nat) (batchKey : String) (compiled : Compiled)
    (values : JsonObject) (outline : Outline) (known : EntryFragments),
    Outline.ofText? compiled.operation = some outline →
    Text.dropBlank outline.selectionChars = cs →
    lib.isolate aliasName compiled.fragmentNames = .ok known → known.copied = copied →
    (Entry.ofCompiled lib ticket aliasName batchKey compiled values =
        .error (.topLevelFragment aliasName batchKey) ↔
      ∃ top ∈ tops, top.isFragment = true)
  /-- Otherwise it gives the response keys in order. -/
  fields : (∀ top ∈ tops, top.isFragment = false) → ∃ text,
    aliasSelections aliasName copied cs =
      some (text, tops.filterMap (TopSelection.field? aliasName))
  /-- The text is that of the selections with keys, variables and copied spreads renamed, and is
  read as such if the alias is a name. Nothing else has changed, the gaps included. Both conditions
  hold of every merge (`Session.MergedFrom.selections_eq`): aliases are names, and no fragment is
  called by the word that begins a type condition. -/
  text : "on" ∉ copied → ∀ text fields,
    aliasSelections aliasName copied cs = some (text, fields) →
    text = Lexeme.charsOf (tops.flatMap (TopSelection.forEntry aliasName copied)) ++
      (scan cs).trailer ∧
    (IsName aliasName.toList →
      scan text = ⟨tops.flatMap (TopSelection.forEntry aliasName copied), (scan cs).trailer⟩)

/-- **Aliasing renames the response keys at the top level, variables, and spreads of copied
fragments, and changes nothing else**, however the body is read as a row of selections. -/
theorem aliasingLaws_of_isBody (aliasName : String) (copied : List String) {cs : List Char}
    (hbody : IsBody cs) :
    (∃ tops : List TopSelection, (∀ top ∈ tops, top.Derived) ∧
        (scan cs).lexemes = tops.flatMap TopSelection.row) ∧
      ∀ tops : List TopSelection, (∀ top ∈ tops, top.Derived) →
        (scan cs).lexemes = tops.flatMap TopSelection.row →
        AliasingLaws aliasName copied cs tops := by
  refine ⟨exists_tops hbody.derives, fun tops htops hrow => ?_⟩
  have hwalk := @aliasRow_tops aliasName copied tops htops .start fresh_start
  rw [← hrow] at hwalk
  -- The walk has two ways to end, and a fragment at the top level tells which
  have hrefused : aliasSelections aliasName copied cs = none ↔
      ∃ top ∈ tops, top.isFragment = true := by
    rw [aliasSelections_eq, Option.map_eq_none_iff]
    rcases hwalk with ⟨hfragment, hnone⟩ | ⟨hfields, hsome, -⟩
    · exact iff_of_true hnone hfragment
    · apply iff_of_false
      · rw [hsome]
        exact Option.some_ne_none _
      · rintro ⟨top, htop, hfragment⟩
        rw [hfields top htop] at hfragment
        cases hfragment
  constructor
  case refused_iff => exact hrefused
  case error_iff =>
    intro lib ticket batchKey compiled values outline known houtline hcs hknown hcopied
    rw [Entry.ofCompiled_refused_iff houtline hknown, hcs, hcopied, hrefused]
  case fields =>
    intro hfields
    rcases hwalk with ⟨⟨top, htop, hfragment⟩, -⟩ | ⟨-, hsome, -⟩
    · rw [hfields top htop] at hfragment
      cases hfragment
    · rw [aliasSelections_eq, hsome]
      exact ⟨_, rfl⟩
  case text =>
    intro hon text fields haliased
    obtain ⟨⟨htext, -⟩, hscan⟩ := text_of_isBody hbody htops hrow hon haliased
    exact ⟨htext, hscan⟩

/-- In every merge of a run the alias is a name and no fragment called `on` is copied, and so the
selections of the entry are those of its operation, renamed as `AliasingLaws.text` says. -/
theorem Session.MergedFrom.selections_eq {s : Session} {steps : List SessionStep} {lib : Library}
    {template : Template} {values : JsonObject} {entry : Entry}
    (h : s.MergedFrom steps lib template values entry) :
    ∃ w : Woven lib template values entry, ∀ tops : List TopSelection,
      IsBody (Text.dropBlank w.outline.selectionChars) → (∀ top ∈ tops, top.Derived) →
      (scan (Text.dropBlank w.outline.selectionChars)).lexemes = tops.flatMap TopSelection.row →
      entry.fields = tops.filterMap (TopSelection.field? entry.aliasName) ∧
        scan w.selection =
          ⟨tops.flatMap (TopSelection.forEntry entry.aliasName w.fragments.copied),
            (scan (Text.dropBlank w.outline.selectionChars)).trailer⟩ := by
  obtain ⟨⟨code, hcode⟩, ⟨w⟩⟩ := h.woven
  -- What the entry copies carries alias names, so no copied fragment is called `on`
  refine ⟨w, fun tops hbody htops hrow => ?_⟩
  obtain ⟨⟨-, hfields⟩, hscan⟩ := text_of_isBody hbody htops hrow w.on_not_mem_copied w.aliases
  exact ⟨hfields, hscan (hcode ▸ isName_aliasOfCode code)⟩

/-- A field with an alias and a field without, the one on a line of its own behind a comment. -/
def viewerAndPosts : String :=
  "me: viewer(id: $id) # one\n posts @skip(if: $off) {...card id}"

private theorem isBody_viewerAndPosts : IsBody viewerAndPosts.toList := by
  have hrow : (scan viewerAndPosts.toList).lexemes =
      [nameBehind [] "me", markBehind [] ':', nameBehind [' '] "viewer", markBehind [] '(',
        nameBehind [] "id", markBehind [] ':', ⟨[' '], .variable, "$id".toList⟩, markBehind [] ')',
        nameBehind " # one\n ".toList "posts", markBehind [' '] '@', nameBehind [] "skip",
        markBehind [] '(', nameBehind [] "if", markBehind [] ':',
        ⟨[' '], .variable, "$off".toList⟩, markBehind [] ')', markBehind [' '] '{',
        ⟨[], .ellipsis, "...".toList⟩, nameBehind [] "card", nameBehind [' '] "id",
        markBehind [] '}'] := by
    decide +kernel
  have hargument : ∀ name used : Lexeme, name.kind = .name → used.kind = .variable →
      Derives (.arguments false) [markBehind [] '(', name, markBehind [] ':', used,
        markBehind [] ')'] := fun _ _ hname hused =>
    .arguments rfl (.membersCons hname rfl (.variableUse hused) .membersNil) (by simp) rfl
  have hviewer : Derives .field [nameBehind [' '] "viewer", markBehind [] '(',
      nameBehind [] "id", markBehind [] ':', ⟨[' '], .variable, "$id".toList⟩,
      markBehind [] ')'] :=
    .field rfl (hargument _ _ rfl rfl) .directivesNil .noSubselection
  have hme : Derives .selection (nameBehind [] "me" :: markBehind [] ':' :: _) :=
    .aliasedField rfl rfl hviewer
  -- The second field from the inside: what is below it, its directive, and the field
  have hcard : Derives .selection [⟨[], .ellipsis, "...".toList⟩, nameBehind [] "card"] :=
    .spread rfl (by decide) .segmentsNil .directivesNil
  have hid : Derives .selection [nameBehind [' '] "id"] :=
    .bareField (.field rfl .noArguments .directivesNil .noSubselection)
  have hbelow : Derives .selectionSet [markBehind [' '] '{', ⟨[], .ellipsis, "...".toList⟩,
      nameBehind [] "card", nameBehind [' '] "id", markBehind [] '}'] :=
    .selectionSet rfl (.selectionsCons hcard (.selectionsCons hid .selectionsNil)) (by simp) rfl
  have hskip : Derives (.directives false) [markBehind [' '] '@', nameBehind [] "skip",
      markBehind [] '(', nameBehind [] "if", markBehind [] ':',
      ⟨[' '], .variable, "$off".toList⟩, markBehind [] ')'] :=
    .directivesCons rfl rfl (hargument _ _ rfl rfl) .directivesNil
  have hposts : Derives .selection (nameBehind " # one\n ".toList "posts" :: _) :=
    .bareField (.field rfl .noArguments hskip (.subselection hbelow))
  have hderives := Derives.selectionsCons hme (.selectionsCons hposts .selectionsNil)
  constructor
  · rw [hrow]
    exact hderives
  · decide +kernel

theorem aliasingLaws_viewerAndPosts : IsBody viewerAndPosts.toList ∧
    (∃ tops : List TopSelection, (∀ top ∈ tops, top.Derived) ∧
        (scan viewerAndPosts.toList).lexemes = tops.flatMap TopSelection.row) ∧
      ∀ tops : List TopSelection, (∀ top ∈ tops, top.Derived) →
        (scan viewerAndPosts.toList).lexemes = tops.flatMap TopSelection.row →
        AliasingLaws "merge0001" ["card"] viewerAndPosts.toList tops :=
  ⟨isBody_viewerAndPosts, aliasingLaws_of_isBody "merge0001" ["card"] isBody_viewerAndPosts⟩

/-- The comment stays, and so does the gap in front of each key. -/
example : (aliasSelections "merge0001" ["card"] viewerAndPosts.toList).map (fun aliased =>
      (String.ofList aliased.1, aliased.2.map ResponseField.expected)) =
    some ("merge0001_me: viewer(id: $merge0001__id) # one\n merge0001_posts:posts " ++
      "@skip(if: $merge0001__off) {...merge0001_card id}", ["me", "posts"]) := by
  decide +kernel

/-- Behind a field and its selections a fragment stands at the top level again. -/
example :
    aliasSelections "merge0001" [] "posts {id} ... on Query {id}".toList = none := by
  decide +kernel

end QueryWeave
