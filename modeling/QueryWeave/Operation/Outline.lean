import QueryWeave.Lexeme.Bracket
import QueryWeave.Names
import QueryWeave.Operation.Template

/-!
# Operation Outlines

The landmarks of an operation: keyword and name, the signature in parentheses, whatever stands
between that and the selection set, the selection set, and what follows. An outline is a way of
cutting the lexemes of a text, so it spells out the whole text again.
-/

namespace QueryWeave

/-! ## §1 Outlines -/

/-- Lexemes between a bracket and the bracket that closes it. -/
structure Enclosed where
  opener : Lexeme
  inner : List Lexeme
  closer : Lexeme
  deriving Repr, DecidableEq

def Enclosed.row (e : Enclosed) : List Lexeme :=
  e.opener :: e.inner ++ [e.closer]

/-- An operation, cut at its landmarks. No part is computed from another one, so that an outline
with one part replaced spells out the text with that part replaced. -/
structure Outline where
  /-- The keyword and the name, as far as they are written. -/
  lead : List Lexeme
  name : Option String
  signature : Option Enclosed
  /-- What stands between signature and selection set, such as directives. -/
  middle : List Lexeme
  selection : Enclosed
  after : List Lexeme
  trailer : List Char
  deriving Repr, DecidableEq

/-- What an operation says about its variables. The three cases are compiled in three different ways
(`Outline.declare`). -/
inductive SignatureKind where
  | absent
  /-- The signature is literally `(@autodeclare)`. -/
  | autodeclare
  | explicit
  deriving Repr, DecidableEq

/-! ## §2 Cutting an operation -/

/-- The keyword and the name at the front of a row, and the rest. A name without a keyword is none:
then nothing is cut. -/
def cutLead : List Lexeme → List Lexeme × Option String × List Lexeme
  | [] => ([], none, [])
  | keyword :: rest =>
    if keyword.isKeyword then
      match rest with
      | [] => ([keyword], none, [])
      | name :: more =>
        if name.isName then ([keyword, name], some name.word, more)
        else ([keyword], none, name :: more)
    -- Shorthand: the selection set begins at once, or whatever the text has in its place
    else ([], none, keyword :: rest)

/-- The signature at the front of a row, and the rest. Fails if its parenthesis is not closed. -/
def cutSignature : List Lexeme → Option (Option Enclosed × List Lexeme)
  | [] => some (none, [])
  | l :: rest =>
    if l.isMark '(' then
      (closeAt 1 rest).map fun closed => (some ⟨l, closed.inner, closed.closer⟩, closed.rest)
    else some (none, l :: rest)

/-- The row up to its first opening brace, the selection set, and the rest. Fails if there is no
brace or it is not closed.

The first brace behind the signature counts, whatever it opens: an object in the arguments of a
directive is taken for the selection set. `exists_landmarks` says when the cut is the right one. -/
def cutSelection (row : List Lexeme) : Option (List Lexeme × Enclosed × List Lexeme) :=
  let middle := row.takeWhile fun l => !l.isMark '{'
  match row.dropWhile fun l => !l.isMark '{' with
  | [] => none
  | opener :: rest =>
    (closeAt 1 rest).map fun closed => (middle, ⟨opener, closed.inner, closed.closer⟩, closed.rest)

namespace Outline

/-- The outline of a scanned text, if its signature and selection set are closed. The three cuts
follow each other, each on what the one before has left. -/
def ofScan? (s : Scan) : Option Outline := do
  let (lead, name, behindLead) := cutLead s.lexemes
  let (signature, behindSignature) ← cutSignature behindLead
  let (middle, selection, after) ← cutSelection behindSignature
  return { lead, name, signature, middle, selection, after, trailer := s.trailer }

def ofText? (source : String) : Option Outline :=
  ofScan? (scanText source)

/-! ## §3 Reading an outline -/

def signatureRow (o : Outline) : List Lexeme :=
  (o.signature.map Enclosed.row).getD []

/-- The text that an outline was cut from. -/
def scan (o : Outline) : Scan :=
  ⟨o.lead ++ o.signatureRow ++ o.middle ++ o.selection.row ++ o.after, o.trailer⟩

/-- What the operation says about its variables. Comments and blanks inside of `(@autodeclare)` are
gaps, and do not matter. -/
def signatureKind (o : Outline) : SignatureKind :=
  match o.signature with
  | none => .absent
  | some signature =>
    match signature.inner with
    | [at_, name] =>
      if at_.isMark '@' && name.word = "autodeclare" then .autodeclare else .explicit
    -- With anything besides it is no request, and is read as a signature like any other
    | _ => .explicit

/-- The variables referenced in the selection set, each once, in first-seen order. Those in
directives in front of it, and those in fragments, are not among them. -/
def referencedVariables (o : Outline) : List String :=
  Names.distinct ((o.selection.row.filter Lexeme.isVariable).map Lexeme.variableName)

/-- The text strictly between the braces of the selection set. -/
def selectionChars (o : Outline) : List Char :=
  Lexeme.charsOf o.selection.inner ++ o.selection.closer.gap

/-- The bytes of the signature, parentheses included. -/
def signatureSpan (o : Outline) : Option Span :=
  o.signature.map fun signature =>
    let start := byteLength (Lexeme.charsOf o.lead ++ signature.opener.gap)
    ⟨start, start + byteLength (Lexeme.spanText signature.row)⟩

def selectionOpen (o : Outline) : Nat :=
  byteLength (Lexeme.charsOf (o.lead ++ o.signatureRow ++ o.middle) ++ o.selection.opener.gap)

def selectionClose (o : Outline) : Nat :=
  byteLength (Lexeme.charsOf (o.lead ++ o.signatureRow ++ o.middle) ++
    o.selection.opener.chars ++ o.selectionChars)

end Outline

/-- Whether a template asks for inferred declarations in so many words. -/
def Template.autodeclare (t : Template) : Bool :=
  (Outline.ofText? t.source).any fun o => o.signatureKind = .autodeclare

end QueryWeave
