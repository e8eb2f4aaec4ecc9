import QueryWeave.Proofs.Batch.Selection
import QueryWeave.Proofs.Operation.Grammar

/-!
# The Walk Along a Field

All that follows the name of a field — arguments, directives and selections below — the walk
passes without finding a response key, renaming variables and copied spreads on its way. Brackets
lead it below the top level, where nothing is a key, and behind an at sign no selection begins.
Where the field ends, the next selection may begin: in front of that place stands a name or a
closing bracket.

- `Passed.aliasRow`: what the walk makes of rows that it passes.
- `Derives.passed_field`: the walk passes what follows the name of a field.
- `SelectionPoint.Fresh`: points at which a selection may begin.
- `Derives.endsField`: how a field ends.
-/

namespace QueryWeave

/-! ## §1 Rows that the walk passes -/

/-- A row in which the walk, coming from a point, finds no response key and no fragment at the top
level. -/
structure Passed (p : SelectionPoint) (row : List Lexeme) : Prop where
  keys : topKeys p row = []
  plain : plainTop p row = true

theorem passed_nil (p : SelectionPoint) : Passed p [] := ⟨rfl, rfl⟩

theorem Passed.append {p : SelectionPoint} {first second : List Lexeme} (hfirst : Passed p first)
    (hsecond : Passed (p.behind first) second) : Passed p (first ++ second) where
  keys := by rw [topKeys_append, hfirst.keys, hsecond.keys, List.append_nil]
  plain := by rw [plainTop_append, hfirst.plain, hsecond.plain, Bool.and_true]

theorem passed_cons_iff {p : SelectionPoint} {l : Lexeme} {rest : List Lexeme} :
    Passed p (l :: rest) ↔
      p.isKey l = false ∧ (l.kind = .ellipsis → p.depth ≠ 0) ∧ Passed (p.advance l) rest := by
  constructor
  · rintro ⟨hkeys, hplain⟩
    rw [topKeys, List.append_eq_nil_iff] at hkeys
    simp only [plainTop, Bool.and_eq_true, Bool.not_eq_true', Bool.and_eq_false_iff,
      decide_eq_false_iff_not] at hplain
    refine ⟨by simpa using hkeys.1, fun hkind hdepth => ?_, hkeys.2, hplain.2⟩
    exact hplain.1.elim (fun hne => hne hkind) fun hne => hne hdepth
  · -- Only an ellipsis can stand against a plain walk, so the kinds are told apart by that
    rintro ⟨hkey, hdots, hkeys, hplain⟩
    refine ⟨by rw [topKeys, hkey, hkeys]; rfl, ?_⟩
    by_cases hkind : l.kind = .ellipsis <;> simp [plainTop, hplain, hkind, hdots]

/-- Put selections that are aliased already in front of others. -/
def AliasedRow.append (first later : AliasedRow) : AliasedRow :=
  ⟨first.row ++ later.row, first.fields ++ later.fields⟩

section Walk

variable {aliasName : String} {copied : List String} {p : SelectionPoint}

/-- The walk copies what it passes, and goes on behind it with nothing found. The induction follows
the walk; that nothing is found is part of what `Passed` says of every lexeme on the way. -/
theorem Passed.aliasRow {row : List Lexeme} (h : Passed p row) (rest : List Lexeme) :
    aliasRow aliasName copied p (row ++ rest) =
      (aliasRow aliasName copied (p.behind row) rest).map
        (AliasedRow.append ⟨copyRow aliasName copied p.before row, []⟩) := by
  induction row generalizing p with
  | nil =>
    show QueryWeave.aliasRow aliasName copied p rest = Option.map id _
    rw [Option.map_id]
    rfl
  | cons l more ih =>
    obtain ⟨hkey, hdots, hmore⟩ := passed_cons_iff.1 h
    -- With no key here, the role is that of a lexeme in a copy
    have hrole : (p.role copied l (more ++ rest).head?).spell aliasName l =
          [if l.isVariable then l.toEntryVariable aliasName
            else if namesCopy copied p.before l then l.toEntryName aliasName else l] ∧
        (p.role copied l (more ++ rest).head?).field? aliasName l = none ∧
        p.role copied l (more ++ rest).head? ≠ .topLevelFragment := by
      have htop : (decide (l.kind = .ellipsis) && decide (p.depth = 0)) = false := by
        by_cases hkind : l.kind = .ellipsis <;> simp [hkind, hdots]
      unfold SelectionPoint.isKey at hkey
      simp only [SelectionPoint.role, htop, hkey]
      by_cases hvariable : l.isVariable = true
      · simp [hvariable, SelectionRole.spell, SelectionRole.field?]
      · by_cases hcopy : namesCopy copied p.before l = true <;>
          simp [hvariable, hcopy, SelectionRole.spell, SelectionRole.field?]
    obtain ⟨hspell, hfield, htop⟩ := hrole
    rw [List.cons_append, QueryWeave.aliasRow, if_neg htop, hspell, hfield, ih hmore,
      Option.map_map]
    rfl

/-- No key in what the walk passes touches anything. -/
theorem Passed.keysApart {row : List Lexeme} (h : Passed p row) (rest : List Lexeme) :
    keysApart p (row ++ rest) = keysApart (p.behind row) rest := by
  induction row generalizing p with
  | nil => rfl
  | cons l more ih =>
    obtain ⟨hkey, -, hmore⟩ := passed_cons_iff.1 h
    rw [List.cons_append, QueryWeave.keysApart, hkey, ih hmore]
    rfl

end Walk

/-! ## §2 What follows the name of a field -/

/-- Below the top level the walk passes everything, as long as it does not lead back there. -/
theorem passed_of_depth {p : SelectionPoint} {outer behind : Nat} (hp : p.depth = outer + 1)
    {row : List Lexeme} (h : depthBehind outer row = some behind) : Passed p row := by
  induction row generalizing p outer with
  | nil => exact passed_nil p
  | cons l rest ih =>
    have hdepth : p.depth ≠ 0 := by omega
    refine passed_cons_iff.2 ⟨not_isKey_of_depth hdepth l, fun _ => hdepth, ?_⟩
    simp only [depthBehind] at h
    split_ifs at h with hopens hcloses
    · exact ih (by simp [SelectionPoint.advance, hopens, hp]) h
    · cases outer with
      -- A bracket that would lead back to the top level is what the count rules out
      | zero => cases h
      | succ inner => exact ih (by simp [SelectionPoint.advance, hopens, hcloses, hp]) h
    · exact ih (by simp [SelectionPoint.advance, hopens, hcloses, hp]) h

/-- Helper: a bracket is neither a key nor an ellipsis. -/
private theorem passed_bracket {p : SelectionPoint} {l : Lexeme}
    (h : l.opens = true ∨ l.closes = true) : Passed p [l] := by
  have hkind : l.kind ≠ .name ∧ l.kind ≠ .ellipsis := by
    constructor <;> intro hkind <;>
      simp [Lexeme.opens, Lexeme.closes, Lexeme.isMark, hkind] at h
  refine passed_cons_iff.2 ⟨?_, fun hdots => absurd hdots hkind.2, passed_nil _⟩
  simp [SelectionPoint.isKey, Lexeme.isName, hkind]

/-- At the top level the walk passes whatever stands between brackets. -/
theorem passed_enclosed {p : SelectionPoint} (hp : p.depth = 0) {opener closer : Lexeme}
    {row : List Lexeme} (hopens : opener.opens = true) (hrow : Balanced row)
    (hcloses : closer.closes = true) : Passed p (opener :: row ++ [closer]) := by
  have hinside : (p.behind [opener]).depth = 0 + 1 := by
    simp [SelectionPoint.behind, SelectionPoint.advance, hopens, hp]
  have hpassed := passed_of_depth hinside (hrow.depthBehind 0)
  exact ((passed_bracket (.inl hopens)).append hpassed).append (passed_bracket (.inr hcloses))

/-- Helper: a colon or at sign is no bracket. -/
private theorem not_bracket_of_announces {l : Lexeme} (h : l.announces = true) :
    l.opens = false ∧ l.closes = false := by
  simp only [Lexeme.announces, Bool.or_eq_true, Lexeme.isMark_iff] at h
  rcases h with hkind | hkind <;>
    simp [Lexeme.opens, Lexeme.closes, Lexeme.isMark, hkind]

theorem SelectionPoint.depth_advance_name {p : SelectionPoint} (hp : p.depth = 0) {name : Lexeme}
    (hname : name.kind = .name) : (p.advance name).depth = 0 := by
  have hnot := not_bracket (l := name) (by simp [hname])
  simp [SelectionPoint.advance, hnot, hp]

/-- A name that a colon or at sign announces is no key: it is the field behind an alias, or the name
of a directive. -/
theorem passed_announced {p : SelectionPoint} (hp : p.depth = 0) {sign name : Lexeme}
    (hsign : sign.announces = true) (hname : name.kind = .name) {row : List Lexeme}
    (hrow : ∀ q : SelectionPoint, q.depth = 0 → Passed q row) : Passed p (sign :: name :: row) := by
  have hdepth : (p.advance sign).depth = 0 := by
    simp [SelectionPoint.advance, not_bracket_of_announces hsign, hp]
  have hkind : sign.kind ≠ .name ∧ sign.kind ≠ .ellipsis := by
    constructor <;> intro hkind <;> simp [Lexeme.announces, Lexeme.isMark, hkind] at hsign
  have hbehind := hrow _ (SelectionPoint.depth_advance_name hdepth hname)
  refine passed_cons_iff.2 ⟨?_, fun hdots => absurd hdots hkind.2,
    passed_cons_iff.2 ⟨?_, by simp [hname], hbehind⟩⟩
  · simp [SelectionPoint.isKey, Lexeme.isName, hkind]
  · -- At the name, the sign is the last lexeme in front that stands at the top level
    have hlast : (p.advance sign).lastTop = some sign := by
      simp [SelectionPoint.advance, hp]
    unfold Lexeme.announces at hsign
    simp [SelectionPoint.isKey, SelectionPoint.beginsSelection, hlast, hsign]

/-- A phrase that stands at the top level leads back there. -/
theorem Derives.depth_behind {phrase : Phrase} {row : List Lexeme} (h : Derives phrase row)
    {p : SelectionPoint} (hp : p.depth = 0) : (p.behind row).depth = 0 := by
  have hbalanced := h.orderly.balanced.depthBehind p.depth
  rw [QueryWeave.depth_behind hbalanced, hp]

theorem Derives.passed_arguments {constant : Bool} {row : List Lexeme}
    (h : Derives (.arguments constant) row) {p : SelectionPoint} (hp : p.depth = 0) :
    Passed p row := by
  cases h with
  | noArguments => exact passed_nil p
  | arguments hopener hitems _ hcloser =>
    apply passed_enclosed hp
    · simp [Lexeme.opens, hopener]
    · exact hitems.orderly.balanced
    · simp [Lexeme.closes, hcloser]

theorem Derives.passed_subselection {row : List Lexeme} (h : Derives .subselection row)
    {p : SelectionPoint} (hp : p.depth = 0) : Passed p row := by
  cases h with
  | noSubselection => exact passed_nil p
  | subselection hselections =>
    cases hselections with
    | selectionSet hopener hinner _ hcloser =>
      apply passed_enclosed hp
      · simp [Lexeme.opens, hopener]
      · exact hinner.orderly.balanced
      · simp [Lexeme.closes, hcloser]

/-- The name of a directive stands behind an at sign, where no selection begins. -/
theorem Derives.passed_directives {constant : Bool} {row : List Lexeme}
    (h : Derives (.directives constant) row) {p : SelectionPoint} (hp : p.depth = 0) :
    Passed p row := by
  generalize hphrase : Phrase.directives constant = phrase at h
  induction h generalizing p with
  | directivesNil => exact passed_nil p
  | directivesCons hsign hname harguments hothers _ ih =>
    rw [List.cons_append, List.cons_append]
    refine passed_announced hp (by simp [Lexeme.announces, hsign]) hname fun q hq => ?_
    exact (harguments.passed_arguments hq).append (ih (harguments.depth_behind hq) hphrase)
  | _ => cases hphrase

/-- The walk passes what follows the name of a field. -/
theorem Derives.passed_field {name : Lexeme} {behind : List Lexeme}
    (h : Derives .field (name :: behind)) {p : SelectionPoint} (hp : p.depth = 0) :
    Passed p behind := by
  cases h with
  | field _ harguments hdirectives hselections =>
    have hfirst := harguments.depth_behind hp
    have hsecond := hdirectives.depth_behind hfirst
    exact (harguments.passed_arguments hp).append
      ((hdirectives.passed_directives hfirst).append (hselections.passed_subselection hsecond))

/-! ## §3 Points where a selection may begin -/

/-- Whether a field may end with a lexeme: it is a name or a closing bracket. -/
def Lexeme.EndsField (l : Lexeme) : Prop :=
  l.kind = .name ∨ l.closes = true

/-- A point at the top level at which a selection may begin. The lexeme in front, if there is one,
ends a field: so it is no colon or at sign, and what follows it is neither announced nor below
anything. -/
structure SelectionPoint.Fresh (p : SelectionPoint) : Prop where
  depth : p.depth = 0
  lastTop : p.lastTop = p.before
  before : ∀ l ∈ p.before, l.EndsField

theorem fresh_start : SelectionPoint.start.Fresh :=
  ⟨rfl, rfl, by simp [SelectionPoint.start]⟩

theorem Lexeme.EndsField.not_isMark {l : Lexeme} (h : l.EndsField) {mark : Char}
    (hmark : mark ∉ ['}', ')', ']']) : l.isMark mark = false := by
  simp only [List.mem_cons, List.not_mem_nil, or_false, not_or] at hmark
  rcases h with hname | hcloses
  · simp [isMark, hname]
  · rcases closes_iff.1 hcloses with hkind | hkind | hkind <;>
      simp [isMark, hkind, Ne.symm, hmark]

/-- Helper: what two rows end with, one behind the other. -/
private theorem endsField_append {first second : List Lexeme}
    (hfirst : ∀ l ∈ first.getLast?, l.EndsField) (hsecond : ∀ l ∈ second.getLast?, l.EndsField) :
    ∀ l ∈ (first ++ second).getLast?, l.EndsField := by
  intro l hl
  rw [List.getLast?_append, Option.mem_def, Option.or_eq_some_iff] at hl
  rcases hl with hl | ⟨-, hl⟩
  · exact hsecond l hl
  · exact hfirst l hl

/-- Helper: a row between brackets ends with one. -/
private theorem endsField_enclosed {opener closer : Lexeme} (row : List Lexeme)
    (hcloses : closer.closes = true) :
    ∀ l ∈ (opener :: row ++ [closer]).getLast?, l.EndsField := by
  intro l hl
  rw [List.getLast?_concat, Option.mem_some_iff] at hl
  exact .inr (hl ▸ hcloses)

private theorem Derives.endsField_arguments {constant : Bool} {row : List Lexeme}
    (h : Derives (.arguments constant) row) : ∀ l ∈ row.getLast?, l.EndsField := by
  cases h with
  | noArguments => simp
  | arguments _ _ _ hcloser =>
    apply endsField_enclosed
    simp [Lexeme.closes, hcloser]

private theorem Derives.endsField_directives {constant : Bool} {row : List Lexeme}
    (h : Derives (.directives constant) row) : ∀ l ∈ row.getLast?, l.EndsField := by
  generalize hphrase : Phrase.directives constant = phrase at h
  induction h with
  | directivesNil => simp
  | @directivesCons _ sign name arguments others _ hname harguments _ _ ih =>
    have hnamed : ∀ l ∈ [sign, name].getLast?, l.EndsField := by
      simpa [Lexeme.EndsField] using Or.inl hname
    exact endsField_append (endsField_append hnamed harguments.endsField_arguments) (ih hphrase)
  | _ => cases hphrase

private theorem Derives.endsField_subselection {row : List Lexeme}
    (h : Derives .subselection row) : ∀ l ∈ row.getLast?, l.EndsField := by
  cases h with
  | noSubselection => simp
  | subselection hselections =>
    cases hselections with
    | selectionSet _ _ _ hcloser =>
      apply endsField_enclosed
      simp [Lexeme.closes, hcloser]

/-- Every field ends with a name or a closing bracket. -/
theorem Derives.endsField {row : List Lexeme} (h : Derives .field row) :
    ∀ l ∈ row.getLast?, l.EndsField := by
  cases h with
  | @field name _ _ _ hname harguments hdirectives hselections =>
    have hnamed : ∀ l ∈ [name].getLast?, l.EndsField := by
      simpa [Lexeme.EndsField] using Or.inl hname
    exact endsField_append hnamed (endsField_append harguments.endsField_arguments
      (endsField_append hdirectives.endsField_directives hselections.endsField_subselection))

namespace SelectionPoint

/-- Behind a row that leads back to the top level and ends as a field does, a selection may
begin. -/
theorem fresh_behind {p : SelectionPoint} {row : List Lexeme} (hdepth : (p.behind row).depth = 0)
    (hsome : row ≠ []) (hlast : ∀ l ∈ row.getLast?, l.EndsField) : (p.behind row).Fresh := by
  obtain ⟨front, l, rfl⟩ := (List.eq_nil_or_concat row).resolve_left hsome
  have hbehind : p.behind (front.concat l) = (p.behind front).advance l := by
    simp [SelectionPoint.behind, List.foldl_append]
  rw [hbehind] at hdepth ⊢
  have hends : l.EndsField := hlast l (by simp)
  refine ⟨hdepth, ?_, fun m hm => ?_⟩
  · -- The last lexeme leads back to the top level, and is remembered there
    show (if _ || decide (((p.behind front).advance l).depth = 0) then some l else _) = some l
    simp [hdepth]
  · rw [← Option.some.inj hm]
    exact hends

variable {p : SelectionPoint} {l : Lexeme}

theorem Fresh.isKey (hp : p.Fresh) (hkind : l.kind = .name) : p.isKey l = true := by
  have hopen : (p.before.any fun b => b.isMark ':' || b.isMark '@') = false := by
    rw [Option.any_eq_false]
    intro b hb
    have hends := hp.before b hb
    rw [hends.not_isMark (by decide), hends.not_isMark (by decide)]
    decide
  rw [SelectionPoint.isKey, SelectionPoint.beginsSelection, hp.lastTop, hopen]
  simp [Lexeme.isName, hkind, hp.depth]

theorem Fresh.before_any (hp : p.Fresh) (kind : LexemeKind) (hname : kind ≠ .name)
    (hmark : ∀ mark, kind ≠ .punctuator mark) : (p.before.any fun b => b.kind = kind) = false := by
  rw [Option.any_eq_false]
  intro b hb
  by_contra heq
  have hkind : b.kind = kind := of_decide_eq_true (Bool.of_not_eq_false heq)
  rcases hp.before b hb with hends | hends
  · exact hname (hkind.symm.trans hends)
  · rw [(not_bracket (l := b) fun mark => hkind ▸ hmark mark).2] at hends
    cases hends

end SelectionPoint

end QueryWeave
