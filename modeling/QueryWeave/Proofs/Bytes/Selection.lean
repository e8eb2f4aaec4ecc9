import QueryWeave.Batch.Isolation
import QueryWeave.Proofs.Bytes.Header

/-!
# Names of an Entry by Offsets

Two walks along the tokens of a source put the names of an entry in place: one through the body of a
copied fragment, one through the selections. Both look back at the token in front by its index, and
copy what is pending in front of every token that they rename.

- `renameFrom?_eq`: the body of a copy.
- `aliasFrom?_eq`: the aliased selections.
-/

namespace QueryWeave.Bytes

/-! ## §1 Walks

Copies and aliased selections are written on one walk along the tokens. `Walk` says where it stands:
the row in front, what is pending from it, and the row that is left. -/

/-- A walk along the lexemes of a source: `front` is passed, `row` comes next, and of what is passed
the characters `pending`, from the offset `last` on, are not copied yet. A token that is kept moves
from what comes next to what is pending; one that is renamed has all that is pending copied in front
of it. -/
structure Walk (source : List Char) (last : Nat) (pending : List Char) (front row : List Lexeme)
    (behind : List Char) : Prop where
  read : ReadAt source 0 (front ++ row) behind
  rest : after? source last = some (pending ++ (Lexeme.charsOf row ++ behind))
  offset : last + byteLength pending = byteLength (Lexeme.charsOf front)

/-- One lexeme more in front is one index more, and the offset behind the lexeme. -/
theorem front_concat (front rest : List Lexeme) (l : Lexeme) :
    (front ++ [l]) ++ rest = front ++ l :: rest ∧ (front ++ [l]).length = front.length + 1 ∧
      byteLength (Lexeme.charsOf (front ++ [l])) =
        (l.spanAt (byteLength (Lexeme.charsOf front))).stop :=
  ⟨by simp, by simp, by simp [Lexeme.stop_spanAt, Lexeme.chars]⟩

namespace Walk

variable {source pending behind : List Char} {last : Nat} {front rest : List Lexeme} {l : Lexeme}

theorem start (source : List Char) :
    Walk source 0 [] [] (scan source).lexemes (scan source).trailer :=
  ⟨readAt_scan source, (readAt_scan source).rest, rfl⟩

/-- The lexeme in front is read where it stands. -/
theorem here (h : Walk source last pending front (l :: rest) behind) :
    ReadAt source (byteLength (Lexeme.charsOf front)) (l :: rest) behind := by
  have hread := h.read.append.2
  rwa [Nat.zero_add] at hread

/-- A lexeme that is kept becomes pending. -/
theorem keep (h : Walk source last pending front (l :: rest) behind) :
    Walk source last (pending ++ l.chars) (front ++ [l]) rest behind := by
  refine ⟨?_, ?_, ?_⟩
  · simpa using h.read
  · simpa [Lexeme.chars] using h.rest
  · have hoffset := h.offset
    simp only [byteLength_append, Lexeme.charsOf_append, Lexeme.charsOf_cons, Lexeme.charsOf_nil,
      Lexeme.chars, List.append_nil]
    omega

/-- In front of a lexeme that is replaced, what is pending can be copied. -/
theorem copied (h : Walk source last pending front (l :: rest) behind) :
    slice? source ⟨last, (l.spanAt (byteLength (Lexeme.charsOf front))).start⟩ =
      some (pending ++ l.gap) := by
  refine slice?_of_split (pending ++ l.gap) (l.text ++ (Lexeme.charsOf rest ++ behind)) h.rest ?_ ?_
  · simp
  · simp [Lexeme.spanAt, ← h.offset, Nat.add_assoc]

/-- Behind a lexeme that is replaced, nothing is pending. -/
theorem replace (h : Walk source last pending front (l :: rest) behind) :
    Walk source (l.spanAt (byteLength (Lexeme.charsOf front))).stop [] (front ++ [l]) rest behind :=
  ⟨by simpa using h.read, h.here.next.rest, by simp [Lexeme.stop_spanAt, Lexeme.chars]⟩

end Walk

/-! ## §2 Spreads of copies -/

/-- Whether the token at an index names a spread fragment among `copied`. -/
def namesCopy? (source : List Char) (tokens : List Token) (idx : Nat) (copied : List String) :
    Option Bool :=
  if 0 < idx then do
    let before ← tokens[idx - 1]?
    let token ← tokens[idx]?
    if before.kind = .ellipsis && token.kind = .name then
      return String.ofList (← token.text? source) ∈ copied
    else return false
  else return false

theorem namesCopy?_eq {source behind : List Char} {front rest : List Lexeme} {l : Lexeme}
    (h : ReadAt source 0 (front ++ l :: rest) behind) (copied : List String) :
    namesCopy? source (tokensOf 0 (front ++ l :: rest)) front.length copied =
      some (namesCopy copied front.getLast? l) := by
  have htoken := getElem?_tokensOf 0 front l rest
  have hword := text?_eq h.append.2
  -- Whether a name is renamed is settled by the lexeme in front of it, if there is one
  rcases List.eq_nil_or_concat front with hfront | ⟨first, before, hfront⟩
  · subst hfront
    rfl
  · rw [List.concat_eq_append] at hfront
    subst hfront
    have hbefore := getElem?_tokensOf 0 first before (l :: rest)
    rw [List.append_cons] at hbefore
    have hindex : (first ++ [before]).length - 1 = first.length := by simp
    rw [namesCopy?, if_pos (by simp), hindex, hbefore, htoken]
    simp only [Option.bind_eq_bind, Option.bind_some, hword, namesCopy, List.getLast?_concat,
      Option.any_some, Lexeme.isName]
    by_cases hspread : before.kind = .ellipsis ∧ l.kind = .name
    · simp only [hspread.1, hspread.2, decide_true, Bool.and_self, if_true, Bool.true_and]
      rfl
    · simp only [← Bool.decide_and, hspread, decide_false, Bool.false_eq_true, if_false,
        Bool.false_and]
      rfl

/-! ## §3 The body of a copy -/

/-- The new text of a token in a copied body, if it is renamed. -/
def renamed? (source : List Char) (tokens : List Token) (aliasName : String) (copied : List String)
    (idx : Nat) (t : Token) : Option (Option (List Char)) := do
  if t.kind = .variable then
    let name ← t.variableName? source
    return some ('$' :: (entryVariable aliasName (String.ofList name)).toList)
  else if ← namesCopy? source tokens idx copied then
    let word ← t.text? source
    return some (entryName aliasName (String.ofList word)).toList
  else return none

/-- The source from `last` on, with the tokens from an index on renamed. -/
def renameFrom? (source : List Char) (tokens : List Token) (aliasName : String)
    (copied : List String) (last idx : Nat) : List Token → Option (List Char)
  | [] => after? source last
  | t :: rest => do
    match ← renamed? source tokens aliasName copied idx t with
    | none => renameFrom? source tokens aliasName copied last (idx + 1) rest
    | some text =>
      let kept ← slice? source ⟨last, t.span.start⟩
      let later ← renameFrom? source tokens aliasName copied t.span.stop (idx + 1) rest
      return kept ++ text ++ later

theorem renamed?_eq {source pending behind : List Char} {last : Nat} {front rest : List Lexeme}
    {l : Lexeme} (h : Walk source last pending front (l :: rest) behind) (aliasName : String)
    (copied : List String) :
    renamed? source (tokensOf 0 (front ++ l :: rest)) aliasName copied front.length
        ⟨l.kind, l.spanAt (byteLength (Lexeme.charsOf front))⟩ =
      some (if l.isVariable then some (l.toEntryVariable aliasName).text
        else if namesCopy copied front.getLast? l then some (l.toEntryName aliasName).text
        else none) := by
  rw [renamed?, namesCopy?_eq h.read]
  -- A variable is renamed as such, and otherwise a spread of a copy is
  by_cases hvariable : l.kind = .variable
  · have hname := variableName?_eq h.here hvariable
    rw [hvariable] at hname
    simp [hvariable, Lexeme.isVariable, hname, Lexeme.toEntryVariable, Lexeme.respell,
      Lexeme.variableName]
  · by_cases hcopy : namesCopy copied front.getLast? l = true
    · simp [hvariable, Lexeme.isVariable, hcopy, text?_eq h.here, Lexeme.toEntryName,
        Lexeme.respell, Lexeme.word]
    · simp [hvariable, Lexeme.isVariable, hcopy]

/-- **The walk through a body takes only slices that exist, and gives the body of the copy.** The
induction is on the row that is left, and `Walk` carries what is pending in front of it. -/
theorem renameFrom?_eq {source pending behind : List Char} {last : Nat} {front row : List Lexeme}
    (h : Walk source last pending front row behind) (aliasName : String) (copied : List String) :
    renameFrom? source (tokensOf 0 (front ++ row)) aliasName copied last front.length
        (tokensOf (byteLength (Lexeme.charsOf front)) row) =
      some (pending ++
        (Lexeme.charsOf (copyRow aliasName copied front.getLast? row) ++ behind)) := by
  -- The induction is on what comes next; what is passed and what is pending change with it
  induction row generalizing front pending last with
  | nil => simpa [renameFrom?, copyRow] using h.rest
  | cons l rest ih =>
    obtain ⟨hrow, hlength, hstop⟩ := front_concat front rest l
    rw [tokensOf_cons, renameFrom?, renamed?_eq h, copyRow]
    have hkept := ih h.keep
    have hreplaced := ih h.replace
    rw [hrow, hlength, hstop, List.getLast?_concat] at hkept hreplaced
    simp only [Option.bind_eq_bind, Option.bind_some]
    by_cases hvariable : l.isVariable = true
    · simp [hvariable, h.copied, hreplaced, Lexeme.toEntryVariable, Lexeme.respell]
    · by_cases hcopy : namesCopy copied front.getLast? l = true
      · simp [hvariable, hcopy, h.copied, hreplaced, Lexeme.toEntryName, Lexeme.respell]
      · simp [hvariable, hcopy, hkept, Lexeme.chars]

/-! ## §4 Aliased selections -/

/-- Whether a name at the top level begins a selection, by the token at the top level in front of
it. -/
def beginsSelection (depth : Nat) (lastTop : Option Token) : Bool :=
  depth = 0 && !lastTop.any fun t => t.isMark ':' || t.isMark '@'

/-- The role of the token at an index. -/
def role? (source : List Char) (tokens : List Token) (copied : List String) (depth : Nat)
    (lastTop : Option Token) (idx : Nat) (t : Token) : Option SelectionRole := do
  if t.kind = .variable then return .variableUse
  else if t.kind = .ellipsis && depth = 0 then return .topLevelFragment
  else if ← namesCopy? source tokens idx copied then return .copiedSpread
  else if t.kind = .name && beginsSelection depth lastTop then
    return .responseKey ((tokens[idx + 1]?).any (Token.isMark ':'))
  else return .kept

/-- The text that stands for a token in its role, and its field; nothing for a token that is
kept. -/
def spelled? (source : List Char) (aliasName : String) (t : Token) :
    SelectionRole → Option (Option (List Char × Option ResponseField))
  | .variableUse => do
    let name ← t.variableName? source
    return some ('$' :: (entryVariable aliasName (String.ofList name)).toList, none)
  | .copiedSpread => do
    let word ← t.text? source
    return some ((entryName aliasName (String.ofList word)).toList, none)
  | .responseKey written => do
    let word ← t.text? source
    let key := entryName aliasName (String.ofList word)
    return some (key.toList ++ (if written then [] else ':' :: word),
      some ⟨key, String.ofList word⟩)
  | .kept | .topLevelFragment => return none

/-- The source from `last` on, with the tokens from an index on aliased, and their fields. The inner
result is missing if there is a fragment at the top level. The depth never falls below zero,
whatever brackets the selections hold. -/
def aliasFrom? (source : List Char) (tokens : List Token) (aliasName : String)
    (copied : List String) (last idx depth : Nat) (lastTop : Option Token) :
    List Token → Option (Option (List Char × List ResponseField))
  | [] => do return some (← after? source last, [])
  | t :: rest => do
    let role ← role? source tokens copied depth lastTop idx t
    if role = .topLevelFragment then return none
    else
      let below := if t.opens then depth + 1 else if t.closes then depth - 1 else depth
      let top := if depth = 0 || below = 0 then some t else lastTop
      match ← spelled? source aliasName t role with
      | none => aliasFrom? source tokens aliasName copied last (idx + 1) below top rest
      | some (text, field) =>
        let kept ← slice? source ⟨last, t.span.start⟩
        let later ← aliasFrom? source tokens aliasName copied t.span.stop (idx + 1) below top rest
        return later.map fun (more, fields) => (kept ++ text ++ more, field.toList ++ fields)

def aliasSelections? (aliasName : String) (copied : List String) (selections : List Char) :
    Option (Option (List Char × List ResponseField)) := do
  let tokens ← tokenize? selections
  aliasFrom? selections tokens aliasName copied 0 0 0 none tokens

section

variable {source pending behind : List Char} {last : Nat} {front rest : List Lexeme} {l : Lexeme}

theorem beginsSelection_eq {p : SelectionPoint} {lastTop : Option Token}
    (htop : lastTop.map Token.kind = p.lastTop.map Lexeme.kind) :
    beginsSelection p.depth lastTop = p.beginsSelection := by
  rw [beginsSelection, SelectionPoint.beginsSelection]
  cases lastTop <;> cases hlast : p.lastTop <;> simp_all [Token.isMark, Lexeme.isMark]

theorem role?_eq (h : Walk source last pending front (l :: rest) behind) (copied : List String)
    {p : SelectionPoint} {lastTop : Option Token} (hbefore : p.before = front.getLast?)
    (htop : lastTop.map Token.kind = p.lastTop.map Lexeme.kind) :
    role? source (tokensOf 0 (front ++ l :: rest)) copied p.depth lastTop front.length
        ⟨l.kind, l.spanAt (byteLength (Lexeme.charsOf front))⟩ =
      some (p.role copied l rest.head?) := by
  have hcopy := namesCopy?_eq h.read copied
  have hnext := any_isMark_next 0 ':' front l rest
  have hbegins := beginsSelection_eq htop
  rw [← hbefore] at hcopy
  -- Both tell the role by the same tests in the same order
  simp only [role?, SelectionPoint.role, hcopy, hnext, hbegins, Option.bind_eq_bind,
    Option.bind_some, Lexeme.isVariable, Lexeme.isName, decide_eq_true_eq, pure]
  split_ifs <;> simp_all

theorem kind_of_role_variableUse {copied : List String} {p : SelectionPoint} {next : Option Lexeme}
    (hrole : p.role copied l next = .variableUse) : l.kind = .variable := by
  by_contra hkind
  simp only [SelectionPoint.role, Lexeme.isVariable, hkind, decide_false, Bool.false_eq_true,
    if_false] at hrole
  split_ifs at hrole

/-- A token in a role other than being kept has a text, which stands behind its gap. A kept one is
not looked at: it stays pending, and is written with what follows it. -/
theorem exists_spelled? (h : Walk source last pending front (l :: rest) behind) (aliasName : String)
    {copied : List String} {p : SelectionPoint} {next : Option Lexeme}
    (hkept : p.role copied l next ≠ .kept) (hfragment : p.role copied l next ≠ .topLevelFragment) :
    ∃ text,
      spelled? source aliasName ⟨l.kind, l.spanAt (byteLength (Lexeme.charsOf front))⟩
          (p.role copied l next) =
        some (some (text, (p.role copied l next).field? aliasName l)) ∧
      Lexeme.charsOf ((p.role copied l next).spell aliasName l) = l.gap ++ text := by
  have hword := text?_eq h.here
  cases hrole : p.role copied l next with
  | kept => exact absurd hrole hkept
  | topLevelFragment => exact absurd hrole hfragment
  | variableUse =>
    have hkind := kind_of_role_variableUse hrole
    have hname := variableName?_eq h.here hkind
    -- The name is sliced one byte behind the dollar sign
    refine ⟨(l.toEntryVariable aliasName).text, ?_, ?_⟩
    · simp [spelled?, hname, SelectionRole.field?, Lexeme.toEntryVariable, Lexeme.respell,
        Lexeme.variableName]
    · simp [SelectionRole.spell, Lexeme.toEntryVariable, Lexeme.respell]
  | copiedSpread =>
    refine ⟨(l.toEntryName aliasName).text, ?_, ?_⟩
    · simp [spelled?, hword, SelectionRole.field?, Lexeme.toEntryName, Lexeme.respell, Lexeme.word]
    · simp [SelectionRole.spell, Lexeme.toEntryName, Lexeme.respell]
  | responseKey written =>
    refine ⟨(l.toEntryName aliasName).text ++ (if written then [] else ':' :: l.text), ?_, ?_⟩
    · simp [spelled?, hword, SelectionRole.field?, Lexeme.toEntryName, Lexeme.respell, Lexeme.word]
    · cases written <;> simp [SelectionRole.spell, Lexeme.toEntryName, Lexeme.respell]

/-- Behind a token, the walk by tokens and the one by lexemes stand at one point. -/
theorem top_advance {p : SelectionPoint} {lastTop : Option Token} (l : Lexeme) (span : Span)
    (htop : lastTop.map Token.kind = p.lastTop.map Lexeme.kind) :
    (if p.depth = 0 || (p.advance l).depth = 0 then some ⟨l.kind, span⟩
      else lastTop).map Token.kind =
      (p.advance l).lastTop.map Lexeme.kind := by
  simp only [SelectionPoint.advance]
  split_ifs <;> simp_all

end

/-- **The walk along the selections takes only slices that exist, and gives the aliased row.** The
point of the one walk has lexemes where the other has tokens; only the kinds of these are looked at.
-/
theorem aliasFrom?_eq {source pending behind : List Char} {last : Nat} {front row : List Lexeme}
    (h : Walk source last pending front row behind) (aliasName : String) (copied : List String)
    {p : SelectionPoint} {lastTop : Option Token} (hbefore : p.before = front.getLast?)
    (htop : lastTop.map Token.kind = p.lastTop.map Lexeme.kind) :
    aliasFrom? source (tokensOf 0 (front ++ row)) aliasName copied last front.length p.depth lastTop
        (tokensOf (byteLength (Lexeme.charsOf front)) row) =
      some ((aliasRow aliasName copied p row).map fun aliased =>
        (pending ++ (Lexeme.charsOf aliased.row ++ behind), aliased.fields)) := by
  induction row generalizing front pending last p lastTop with
  | nil =>
    have hrest := h.rest
    simp only [Lexeme.charsOf_nil, List.nil_append] at hrest
    simp [aliasFrom?, aliasRow, hrest]
  | cons l rest ih =>
    obtain ⟨hrow, hlength, hstop⟩ := front_concat front rest l
    have hadvanced : (p.advance l).before = (front ++ [l]).getLast? := by
      simp [SelectionPoint.advance]
    have htopAdvanced := top_advance l (l.spanAt (byteLength (Lexeme.charsOf front))) htop
    have hkept := ih h.keep hadvanced htopAdvanced
    have hreplaced := ih h.replace hadvanced htopAdvanced
    rw [hrow, hlength, hstop] at hkept hreplaced
    rw [tokensOf_cons, aliasFrom?, role?_eq h copied hbefore htop, aliasRow]
    simp only [Option.bind_eq_bind, Option.bind_some]
    -- A fragment at the top level ends the walk, whatever comes behind it
    by_cases hfragment : p.role copied l rest.head? = .topLevelFragment
    · rw [if_pos hfragment, if_pos hfragment]
      rfl
    rw [if_neg hfragment, if_neg hfragment]
    by_cases hkeep : p.role copied l rest.head? = .kept
    · have hspelled : spelled? source aliasName
          ⟨l.kind, l.spanAt (byteLength (Lexeme.charsOf front))⟩ .kept = some none := rfl
      rw [hkeep, hspelled]
      refine hkept.trans ?_
      simp [SelectionRole.spell, SelectionRole.field?, Lexeme.chars, Function.comp_def]
    · obtain ⟨text, hspelled, htext⟩ := exists_spelled? h aliasName hkeep hfragment
      rw [hspelled]
      simp only [Option.bind_some, h.copied]
      -- The point of the walk behind the lexeme is the same for tokens and lexemes
      refine (congrArg (Option.bind · _) hreplaced).trans ?_
      simp [htext, Function.comp_def]

/-- **Aliasing selections takes only slices that exist.** -/
theorem aliasSelections?_eq (aliasName : String) (copied : List String) (selections : List Char) :
    aliasSelections? aliasName copied selections =
      some (aliasSelections aliasName copied selections) := by
  have hwalk := aliasFrom?_eq (Walk.start selections) aliasName copied
    (show SelectionPoint.start.before = _ from rfl)
    (show (none : Option Token).map Token.kind = _ from rfl)
  rw [aliasSelections?, tokenize?_eq, aliasSelections]
  exact hwalk

end QueryWeave.Bytes
