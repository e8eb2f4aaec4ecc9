import QueryWeave.Proofs.Batch.Copies
import QueryWeave.Proofs.Lexeme.Balance

/-!
# Walking Aliased Selections

The walk along the selections of an entry finds the response keys at the top level. Walking once
more along what it spelled finds the keys it gave, at the places where it found the old ones. Taken
back, these keys leave the selections with every key written out, and with the variables and
copied fragments under the entry's names.

- `aliasRow_inversion`: the steps of a walk.
- `aliasRow_of_plainTop`: where the walk succeeds.
- `walk_aliasRow`: the keys of aliased selections.
- `balanced_aliasRow`: their brackets.
-/

namespace QueryWeave

/-! ## §1 Points of the walk -/

namespace SelectionPoint

/-- Whether a name at this point would be the field behind an alias or the name of a directive. -/
def blocked (p : SelectionPoint) : Bool :=
  p.lastTop.any fun l => l.isMark ':' || l.isMark '@'

/-- Points from which the same response keys are found. What stands in front of the point may
differ: the walk looks at it for copied fragments only, and not for keys. -/
structure Agrees (p q : SelectionPoint) : Prop where
  depth : p.depth = q.depth
  blocked : p.blocked = q.blocked

/-- Behind a row of lexemes. -/
def behind (p : SelectionPoint) (row : List Lexeme) : SelectionPoint :=
  row.foldl advance p

/-- Whether a name at the top level would not stand behind an ellipsis. -/
def Clear (p : SelectionPoint) : Prop :=
  p.depth = 0 → p.before.any (fun b => b.kind = .ellipsis) = false

theorem agrees_refl (p : SelectionPoint) : p.Agrees p := ⟨rfl, rfl⟩

theorem Agrees.trans {p q r : SelectionPoint} (h : p.Agrees q) (h' : q.Agrees r) : p.Agrees r :=
  ⟨h.depth.trans h'.depth, h.blocked.trans h'.blocked⟩

theorem Agrees.symm {p q : SelectionPoint} (h : p.Agrees q) : q.Agrees p :=
  ⟨h.depth.symm, h.blocked.symm⟩

theorem Agrees.beginsSelection {p q : SelectionPoint} (h : p.Agrees q) :
    p.beginsSelection = q.beginsSelection := by
  have hblocked := h.blocked
  unfold SelectionPoint.blocked at hblocked
  rw [SelectionPoint.beginsSelection, SelectionPoint.beginsSelection, h.depth, hblocked]

/-- Helper: the depth behind a lexeme. -/
private theorem depth_advance (p : SelectionPoint) (l : Lexeme) :
    (p.advance l).depth =
      if l.opens then p.depth + 1 else if l.closes then p.depth - 1 else p.depth := rfl

/-- Lexemes of one kind lead from agreeing points to agreeing points. -/
theorem Agrees.advance {p q : SelectionPoint} (h : p.Agrees q) {l m : Lexeme}
    (hkind : l.kind = m.kind) : (p.advance l).Agrees (q.advance m) := by
  have hmark : ∀ mark, l.isMark mark = m.isMark mark := fun mark => by
    simp only [Lexeme.isMark, hkind]
  obtain ⟨hopens, hcloses⟩ := brackets_congr hkind
  have hdepth : (p.advance l).depth = (q.advance m).depth := by
    rw [depth_advance, depth_advance, hopens, hcloses, h.depth]
  refine ⟨hdepth, ?_⟩
  have hblocked := h.blocked
  unfold SelectionPoint.blocked at hblocked ⊢
  -- The last lexeme at the top level is the new one on both sides, or the old one on both
  show Option.any _ (if p.depth = 0 || (p.advance l).depth = 0 then some l else p.lastTop) =
    Option.any _ (if q.depth = 0 || (q.advance m).depth = 0 then some m else q.lastTop)
  rw [h.depth, hdepth]
  split
  · simp only [Option.any_some, hmark]
  · exact hblocked

theorem Agrees.behind {p q : SelectionPoint} (h : p.Agrees q) (row : List Lexeme) :
    (p.behind row).Agrees (q.behind row) := by
  induction row generalizing p q with
  | nil => exact h
  | cons l rest ih => exact ih (h.advance rfl)

/-- An ellipsis that is let pass stands below the top level. -/
theorem clear_advance {p : SelectionPoint} {l : Lexeme}
    (h : l.kind = .ellipsis → p.depth ≠ 0) : (p.advance l).Clear := by
  intro hdepth
  by_contra hdots
  simp only [Bool.not_eq_false, SelectionPoint.advance, Option.any_some, decide_eq_true_eq] at hdots
  have hnot := not_bracket (l := l) (by simp [hdots])
  rw [depth_advance, hnot.1, hnot.2] at hdepth
  exact h hdots hdepth

end SelectionPoint

/-! ## §2 Response keys -/

/-- Whether a lexeme at a point of the walk is a response key at the top level. -/
def SelectionPoint.isKey (p : SelectionPoint) (l : Lexeme) : Bool :=
  l.isName && p.beginsSelection

theorem not_isKey (p : SelectionPoint) {l : Lexeme} (hkind : l.kind ≠ .name) :
    p.isKey l = false := by
  simp [SelectionPoint.isKey, Lexeme.isName, hkind]

/-- Below the top level nothing is a key. -/
theorem not_isKey_of_depth {p : SelectionPoint} (hdepth : p.depth ≠ 0) (l : Lexeme) :
    p.isKey l = false := by
  simp [SelectionPoint.isKey, SelectionPoint.beginsSelection, hdepth]

theorem depth_of_isKey {p : SelectionPoint} {l : Lexeme} (hkey : p.isKey l = true) :
    p.depth = 0 := by
  by_contra hdepth
  rw [not_isKey_of_depth hdepth] at hkey
  cases hkey

/-- Whether a lexeme is a key depends on its kind, and not on its text. -/
theorem isKey_congr {p q : SelectionPoint} (h : p.Agrees q) {l m : Lexeme}
    (hkind : l.kind = m.kind) : q.isKey m = p.isKey l := by
  simp only [SelectionPoint.isKey, h.beginsSelection, Lexeme.isName, hkind]

/-- The response keys at the top level, in order. -/
def topKeys (p : SelectionPoint) : List Lexeme → List String
  | [] => []
  | l :: rest => (if p.isKey l then [l.word] else []) ++ topKeys (p.advance l) rest

/-- Whether there is no ellipsis at the top level. -/
def plainTop (p : SelectionPoint) : List Lexeme → Bool
  | [] => true
  | l :: rest => !(l.kind = .ellipsis && p.depth = 0) && plainTop (p.advance l) rest

theorem topKeys_append (p : SelectionPoint) (first second : List Lexeme) :
    topKeys p (first ++ second) = topKeys p first ++ topKeys (p.behind first) second := by
  induction first generalizing p with
  | nil => rfl
  | cons l rest ih =>
    simp only [List.cons_append, topKeys, ih, List.append_assoc]
    rfl

theorem plainTop_append (p : SelectionPoint) (first second : List Lexeme) :
    plainTop p (first ++ second) = (plainTop p first && plainTop (p.behind first) second) := by
  induction first generalizing p with
  | nil => rfl
  | cons l rest ih =>
    simp only [List.cons_append, plainTop, ih, Bool.and_assoc]
    rfl

theorem topKeys_congr {p q : SelectionPoint} (h : p.Agrees q) (row : List Lexeme) :
    topKeys p row = topKeys q row := by
  induction row generalizing p q with
  | nil => rfl
  | cons l rest ih => rw [topKeys, topKeys, isKey_congr h rfl, ih (h.advance rfl)]

theorem plainTop_congr {p q : SelectionPoint} (h : p.Agrees q) (row : List Lexeme) :
    plainTop p row = plainTop q row := by
  induction row generalizing p q with
  | nil => rfl
  | cons l rest ih => simp only [plainTop, h.depth, ih (h.advance rfl)]

/-- Gaps do not matter to the walk. -/
theorem walk_of_tokens {p q : SelectionPoint} (h : p.Agrees q) {row other : List Lexeme}
    (htokens : row.map Lexeme.token = other.map Lexeme.token) :
    topKeys p row = topKeys q other ∧ plainTop p row = plainTop q other := by
  induction row generalizing p q other with
  | nil =>
    cases other with
    | nil => exact ⟨rfl, rfl⟩
    | cons => cases htokens
  | cons l rest ih =>
    cases other with
    | nil => cases htokens
    | cons m more =>
      -- Kind and word are all that the walk looks at, and both are part of the token
      obtain ⟨htoken, hrest⟩ := List.cons.inj htokens
      obtain ⟨hkind, htext⟩ := Prod.mk.inj htoken
      obtain ⟨hkeys, hplain⟩ := ih (h.advance hkind) hrest
      have hkey := isKey_congr h hkind
      have hword : l.word = m.word := congrArg String.ofList htext
      rw [topKeys, topKeys, plainTop, plainTop, hkey, hword, hkeys, hplain, hkind, h.depth]
      exact ⟨rfl, rfl⟩

/-! ## §3 One step of the walk

Each lexeme has one role at a point, and each role its own spelling. `AliasStep` says this as an
inductive relation, so that a proof about the walk is one about five cases and an induction over the
row. -/

def colon : Lexeme := ⟨[], .punctuator ':', [':']⟩

/-- A name directly behind a colon. -/
def Lexeme.bare (l : Lexeme) : Lexeme := ⟨[], .name, l.text⟩

/-- What the walk spells for a lexeme at a point, `next` being behind it, and which field that is.
There is one case for each role that does not end the walk, and each case says what excludes the
others. -/
inductive AliasStep (aliasName : String) (copied : List String) (p : SelectionPoint) (l : Lexeme)
    (next : Option Lexeme) : List Lexeme → List ResponseField → Prop
  | variableUse (hkind : l.kind = .variable) :
      AliasStep aliasName copied p l next [l.toEntryVariable aliasName] []
  | copiedSpread (hkind : l.kind = .name) (hcopied : l.word ∈ copied)
      (hbefore : p.before.any (fun b => b.kind = .ellipsis) = true) (hdepth : p.depth ≠ 0) :
      AliasStep aliasName copied p l next [l.toEntryName aliasName] []
  | writtenKey (hkind : l.kind = .name) (hkey : p.isKey l = true)
      (hnot : namesCopy copied p.before l = false)
      (hnext : next.any (Lexeme.isMark ':') = true) :
      AliasStep aliasName copied p l next [l.toEntryName aliasName]
        [⟨entryName aliasName l.word, l.word⟩]
  | bareKey (hkind : l.kind = .name) (hkey : p.isKey l = true)
      (hnot : namesCopy copied p.before l = false)
      (hnext : next.any (Lexeme.isMark ':') = false) :
      AliasStep aliasName copied p l next [l.toEntryName aliasName, colon, l.bare]
        [⟨entryName aliasName l.word, l.word⟩]
  | kept (hkind : l.kind ≠ .variable) (hkey : p.isKey l = false)
      (hnot : namesCopy copied p.before l = false) (hdots : l.kind = .ellipsis → p.depth ≠ 0) :
      AliasStep aliasName copied p l next [l] []

section Walk

variable {aliasName : String} {copied : List String}

/-- A walk that succeeds takes one step, and succeeds from there. All that is proved of aliased
selections goes by induction with this lemma in the place of the definition. -/
theorem aliasRow_inversion {p : SelectionPoint} (hclear : p.Clear) {l : Lexeme}
    {rest : List Lexeme} {aliased : AliasedRow}
    (h : aliasRow aliasName copied p (l :: rest) = some aliased) :
    ∃ spelled fields later, AliasStep aliasName copied p l rest.head? spelled fields ∧
      aliasRow aliasName copied (p.advance l) rest = some later ∧ (p.advance l).Clear ∧
      aliased = ⟨spelled ++ later.row, fields ++ later.fields⟩ := by
  rw [aliasRow] at h
  split at h
  · cases h
  · rename_i hrole
    obtain ⟨later, hlater, rfl⟩ := Option.map_eq_some_iff.1 h
    have hdots : l.kind = .ellipsis → p.depth ≠ 0 := by
      intro hkind hdepth
      exact hrole (by simp [SelectionPoint.role, Lexeme.isVariable, hkind, hdepth])
    refine ⟨_, _, later, ?_, hlater, SelectionPoint.clear_advance hdots, rfl⟩
    -- One step for each role that a lexeme can have
    unfold SelectionPoint.role
    split_ifs with hvariable htop hcopy hkey
    · exact .variableUse (Lexeme.isVariable_iff.1 hvariable)
    · simp only [Bool.and_eq_true, decide_eq_true_eq] at htop
      exact absurd htop.2 (hdots htop.1)
    · simp only [namesCopy, Bool.and_eq_true, decide_eq_true_eq] at hcopy
      apply AliasStep.copiedSpread (Lexeme.isName_iff.1 hcopy.1.2) hcopy.2 hcopy.1.1
      intro hdepth
      rw [hclear hdepth] at hcopy
      exact absurd hcopy.1.1 (by decide)
    · have hname : l.kind = .name := by
        simp only [Bool.and_eq_true, Lexeme.isName, decide_eq_true_eq] at hkey
        exact hkey.1
      cases hnext : rest.head?.any (Lexeme.isMark ':') with
      | true => exact .writtenKey hname hkey (Bool.eq_false_iff.2 hcopy) hnext
      | false => exact .bareKey hname hkey (Bool.eq_false_iff.2 hcopy) hnext
    · exact .kept (by simpa [Lexeme.isVariable] using hvariable) (Bool.eq_false_iff.2 hkey)
        (Bool.eq_false_iff.2 hcopy) hdots

/-! ## §4 Keys of aliased selections

The aliased selections are walked again, to find the keys that were written. The two walks go side
by side: the point in front of an aliased row agrees with the point in front of the original. -/

/-- A walk succeeds if nothing at the top level is a fragment, and finds the response keys. It is
the converse of what the walk itself says where it succeeds, so the two tell when an entry is
refused. -/
theorem aliasRow_of_plainTop {p : SelectionPoint} (hclear : p.Clear) {row : List Lexeme}
    (h : plainTop p row = true) :
    ∃ aliased, aliasRow aliasName copied p row = some aliased ∧
      aliased.fields.map ResponseField.expected = topKeys p row := by
  induction row generalizing p with
  | nil => exact ⟨⟨[], []⟩, rfl, rfl⟩
  | cons l rest ih =>
    simp only [plainTop, Bool.and_eq_true, Bool.not_eq_true', Bool.and_eq_false_iff,
      decide_eq_false_iff_not] at h
    obtain ⟨hhere, hrest⟩ := h
    have hdots : l.kind = .ellipsis → p.depth ≠ 0 := fun hkind hdepth =>
      hhere.elim (fun hne => hne hkind) fun hne => hne hdepth
    obtain ⟨later, hlater, hkeys⟩ := ih (SelectionPoint.clear_advance hdots) hrest
    -- Only a fragment at the top level would end the walk
    have hsome : ∃ aliased, aliasRow aliasName copied p (l :: rest) = some aliased := by
      rw [aliasRow, if_neg, hlater]
      · exact ⟨_, rfl⟩
      · unfold SelectionPoint.role
        split_ifs with hvariable htop
        · exact fun heq => by cases heq
        · simp only [Bool.and_eq_true, decide_eq_true_eq] at htop
          exact absurd htop.2 (hdots htop.1)
        all_goals exact fun heq => by cases heq
    obtain ⟨aliased, haliased⟩ := hsome
    refine ⟨aliased, haliased, ?_⟩
    obtain ⟨spelled, fields, later', hstep, hlater', -, rfl⟩ := aliasRow_inversion hclear haliased
    rw [hlater] at hlater'
    cases hlater'
    rw [List.map_append, hkeys, topKeys]
    congr 1
    cases hstep with
    | variableUse hkind => simp [not_isKey p (l := l) (by simp [hkind])]
    | copiedSpread hkind hcopied hbefore hdepth => simp [not_isKey_of_depth hdepth]
    | writtenKey hkind hkey hnot hnext => simp [hkey]
    | bareKey hkind hkey hnot hnext => simp [hkey]
    | kept hkind hkey hnot hdots => simp [hkey]

/-- A walk succeeds only if nothing at the top level is a fragment. -/
theorem plainTop_of_aliasRow {p : SelectionPoint} (hclear : p.Clear) {row : List Lexeme}
    {aliased : AliasedRow} (h : aliasRow aliasName copied p row = some aliased) :
    plainTop p row = true := by
  induction row generalizing p aliased with
  | nil => rfl
  | cons l rest ih =>
    obtain ⟨spelled, fields, later, hstep, hlater, hclear', rfl⟩ := aliasRow_inversion hclear h
    -- No step but the last spells an ellipsis
    have hdots : l.kind = .ellipsis → p.depth ≠ 0 := by
      cases hstep with
      | kept hkind hkey hnot hdots => exact hdots
      | _ hkind => simp [hkind]
    rw [plainTop, ih hclear' hlater]
    by_cases hkind : l.kind = .ellipsis <;> simp [hkind, hdots]

/-- Helper: at the top level, a name in front of which no colon stands leads on to further keys. -/
private theorem advance_key {p : SelectionPoint} {l : Lexeme} (hkind : l.kind = .name)
    (hkey : p.isKey l = true) :
    p.depth = 0 ∧ (p.advance l).depth = 0 ∧ (p.advance l).blocked = false := by
  have hdepth := depth_of_isKey hkey
  have hnot := not_bracket (l := l) (by simp [hkind])
  refine ⟨hdepth, ?_, ?_⟩
  · simp [SelectionPoint.advance, hnot, hdepth]
  · simp [SelectionPoint.blocked, SelectionPoint.advance, hdepth, Lexeme.isMark, hkind]

/-- The field behind a key and a colon is no key. -/
theorem not_isKey_behind_colon {q : SelectionPoint} (hdepth : q.depth = 0) {l : Lexeme}
    (hkind : l.kind = .name) (m : Lexeme) : ((q.advance l).advance colon).isKey m = false := by
  have hname := not_bracket (l := l) (by simp [hkind])
  have hcolon : colon.opens = false ∧ colon.closes = false ∧ colon.isMark ':' = true := by decide
  simp [SelectionPoint.isKey, SelectionPoint.beginsSelection, SelectionPoint.advance, hname, hcolon,
    hdepth]

/-- What a step spells is walked over as the lexeme was, and has the key that the step gave. The
point `q` stands in the aliased text and agrees with the point `p` of the original. -/
theorem AliasStep.walk {p q : SelectionPoint} (hagrees : p.Agrees q) {l : Lexeme}
    {next : Option Lexeme} {spelled : List Lexeme} {fields : List ResponseField}
    (h : AliasStep aliasName copied p l next spelled fields) :
    topKeys q spelled = fields.map ResponseField.aliased ∧ plainTop q spelled = true ∧
      (p.advance l).Agrees (q.behind spelled) := by
  cases h with
  | variableUse hkind =>
    have hkind' : (l.toEntryVariable aliasName).kind = .variable := hkind
    refine ⟨?_, ?_, hagrees.advance rfl⟩
    · simp [topKeys, not_isKey q (l := l.toEntryVariable aliasName) (by simp [hkind'])]
    · simp [plainTop, hkind']
  | copiedSpread hkind hcopied hbefore hdepth =>
    have hkind' : (l.toEntryName aliasName).kind = .name := hkind
    refine ⟨?_, ?_, hagrees.advance rfl⟩
    · simp [topKeys, not_isKey_of_depth (hagrees.depth ▸ hdepth)]
    · simp [plainTop, hkind']
  | writtenKey hkind hkey hnot hnext =>
    have hkind' : (l.toEntryName aliasName).kind = .name := hkind
    have hkey' : q.isKey (l.toEntryName aliasName) = true := (isKey_congr hagrees rfl).trans hkey
    refine ⟨?_, ?_, hagrees.advance rfl⟩
    · simp [topKeys, hkey']
    · simp [plainTop, hkind']
  | bareKey hkind hkey hnot hnext =>
    have hkind' : (l.toEntryName aliasName).kind = .name := hkind
    have hkey' : q.isKey (l.toEntryName aliasName) = true := (isKey_congr hagrees rfl).trans hkey
    obtain ⟨hdepth, hdepth', hblocked'⟩ := advance_key hkind hkey
    have hq := hagrees.depth ▸ hdepth
    -- Behind the key stands a colon, so that the field behind it is no key
    have hcolon : colon.opens = false ∧ colon.closes = false ∧ colon.isMark ':' = true ∧
        colon.isName = false := by decide
    have hbare := not_bracket (l := l.bare) (by simp [Lexeme.bare])
    have hkeyBrackets := not_bracket (l := l.toEntryName aliasName) (by simp [hkind'])
    have hsecond : (q.advance (l.toEntryName aliasName)).isKey colon = false := by
      simp [SelectionPoint.isKey, hcolon]
    have hthird := not_isKey_behind_colon hq hkind' l.bare
    refine ⟨?_, ?_, ⟨?_, ?_⟩⟩
    · simp [topKeys, hkey', hsecond, hthird]
    · simp [plainTop, hkind', colon, Lexeme.bare]
    · rw [hdepth']
      simp [SelectionPoint.behind, SelectionPoint.advance, hcolon, hbare, hkeyBrackets, hq]
    · rw [hblocked']
      simp [SelectionPoint.blocked, SelectionPoint.behind, SelectionPoint.advance, hcolon,
        hkeyBrackets, hq, Lexeme.bare, Lexeme.isMark]
  | kept hkind hkey hnot hdots =>
    have hkey' : q.isKey l = false := (isKey_congr hagrees rfl).trans hkey
    refine ⟨?_, ?_, hagrees.advance rfl⟩
    · simp [topKeys, hkey']
    · simp only [plainTop, ← hagrees.depth, Bool.and_true, Bool.not_eq_true',
        Bool.and_eq_false_iff, decide_eq_false_iff_not]
      exact Decidable.not_or_of_imp hdots

/-- The keys of aliased selections are the keys that they were given. -/
theorem walk_aliasRow {p q : SelectionPoint} (hclear : p.Clear) (hagrees : p.Agrees q)
    {row : List Lexeme} {aliased : AliasedRow}
    (h : aliasRow aliasName copied p row = some aliased) :
    topKeys q aliased.row = aliased.fields.map ResponseField.aliased ∧
      plainTop q aliased.row = true ∧ (p.behind row).Agrees (q.behind aliased.row) := by
  induction row generalizing p q aliased with
  | nil =>
    cases h
    exact ⟨rfl, rfl, hagrees⟩
  | cons l rest ih =>
    obtain ⟨spelled, fields, later, hstep, hlater, hclear', rfl⟩ := aliasRow_inversion hclear h
    -- First over what this lexeme became, then over what was written for the rest
    obtain ⟨hkeys, hplain, hagrees'⟩ := hstep.walk hagrees
    obtain ⟨hkeysLater, hplainLater, hbehind⟩ := ih hclear' hagrees' hlater
    refine ⟨?_, ?_, ?_⟩
    · rw [topKeys_append, hkeys, hkeysLater, List.map_append]
    · rw [plainTop_append, hplain, hplainLater]
      rfl
    · rw [SelectionPoint.behind, SelectionPoint.behind, List.foldl_append]
      exact hbehind

/-! ## §5 Brackets -/

/-- What a step spells does to brackets what the lexeme did. -/
theorem AliasStep.depthBehind {p : SelectionPoint} {l : Lexeme} {next : Option Lexeme}
    {spelled : List Lexeme} {fields : List ResponseField}
    (h : AliasStep aliasName copied p l next spelled fields) (depth : Nat) :
    depthBehind depth spelled = depthBehind depth [l] := by
  cases h with
  | variableUse => exact depthBehind_congr rfl depth
  | copiedSpread => exact depthBehind_congr rfl depth
  | writtenKey => exact depthBehind_congr rfl depth
  | bareKey hkind =>
    -- A key, a colon and a name in the place of a name: no bracket is among them
    have hname : ∀ m : Lexeme, m.kind = .name → m.opens = false ∧ m.closes = false :=
      fun m hm => not_bracket (by simp [hm])
    have hcolon : colon.opens = false ∧ colon.closes = false := by decide
    have hkey := hname (l.toEntryName aliasName) hkind
    simp [QueryWeave.depthBehind, hname l hkind, hname l.bare rfl, hkey, hcolon]
  | kept => rfl

/-- Aliasing leaves the depth behind a row as it is, from any point of the walk and at any depth. -/
theorem depthBehind_aliasRow {p : SelectionPoint} (hclear : p.Clear) {row : List Lexeme}
    {aliased : AliasedRow} (h : aliasRow aliasName copied p row = some aliased) (depth : Nat) :
    QueryWeave.depthBehind depth aliased.row = QueryWeave.depthBehind depth row := by
  induction row generalizing p aliased depth with
  | nil =>
    cases h
    rfl
  | cons l rest ih =>
    obtain ⟨spelled, fields, later, hstep, hlater, hclear', rfl⟩ := aliasRow_inversion hclear h
    rw [← List.singleton_append, depthBehind_append, depthBehind_append, hstep.depthBehind]
    congr 1
    funext behind
    exact ih hclear' hlater behind

theorem balanced_aliasRow {row : List Lexeme} {aliased : AliasedRow}
    (h : aliasRow aliasName copied .start row = some aliased) (hbalanced : Balanced row) :
    Balanced aliased.row := by
  have hstart : SelectionPoint.start.Clear := fun _ => rfl
  unfold Balanced at hbalanced ⊢
  rw [depthBehind_aliasRow hstart h]
  exact hbalanced

/-- The walk counts brackets as they are counted elsewhere, as long as none is closed too much.
Below zero the two counts part: the walk stops at the top level, the other count fails. -/
theorem depth_behind {p : SelectionPoint} {row : List Lexeme} {depth : Nat}
    (h : depthBehind p.depth row = some depth) : (p.behind row).depth = depth := by
  induction row generalizing p with
  | nil => exact Option.some.inj h
  | cons l rest ih =>
    apply @ih (p.advance l)
    simp only [QueryWeave.depthBehind] at h
    unfold SelectionPoint.advance
    dsimp only
    split_ifs at h ⊢
    · exact h
    · -- A closing bracket at depth zero is what the count rules out
      cases hdepth : p.depth with
      | zero =>
        rw [hdepth] at h
        cases h
      | succ outer =>
        rw [hdepth] at h
        exact h
    · exact h

/-- Behind a whole selection the next name is a response key, unless a colon or at sign stands at
the end. -/
theorem behind_agrees_start {row : List Lexeme} (hbalanced : Balanced row)
    (hlast : ∀ l ∈ row.getLast?, l.isMark ':' = false ∧ l.isMark '@' = false) :
    (SelectionPoint.start.behind row).Agrees .start := by
  have hdepth : (SelectionPoint.start.behind row).depth = 0 := depth_behind hbalanced
  refine ⟨hdepth, ?_⟩
  rcases List.eq_nil_or_concat row with rfl | ⟨front, l, rfl⟩
  · rfl
  · rw [SelectionPoint.behind, List.concat_eq_append, List.foldl_append] at hdepth ⊢
    have hmarks := hlast l (by simp)
    simp only [List.foldl_cons, List.foldl_nil] at hdepth ⊢
    -- The last lexeme leads back to the top level, and is remembered there
    have htop : ((front.foldl SelectionPoint.advance .start).advance l).lastTop = some l := by
      show (if _ || decide (((front.foldl SelectionPoint.advance .start).advance l).depth = 0)
        then _ else _) = _
      rw [hdepth]
      simp
    simp [SelectionPoint.blocked, htop, hmarks]
    rfl

end Walk

end QueryWeave
