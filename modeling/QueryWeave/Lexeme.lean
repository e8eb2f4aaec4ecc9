/-!
# Lexemes

A template is read as a row of lexemes. Each carries the ignored characters in front of it,
its *gap*, so that a row together with the ignored characters behind it spells out the text it
was read from. A change of single lexemes therefore leaves all other text as the author
wrote it.

Offsets are counted in bytes of the UTF-8 form.
-/

namespace QueryWeave

/-! ## §1 Kinds and lexemes -/

/-- What a lexeme is. The text of a lexeme is kept beside its kind, since two lexemes of one kind
may be spelled differently; only a punctuator is told by its kind alone. -/
inductive LexemeKind where
  /-- Three dots. -/
  | ellipsis
  | name
  /-- A number, or anything else that begins like one. -/
  | other
  /-- A single character of its own. -/
  | punctuator (mark : Char)
  /-- A string or block string, quotes included. -/
  | stringValue
  /-- A name directly behind a dollar sign. -/
  | variable
  deriving Repr, DecidableEq

/-- A lexeme and the ignored characters in front of it.

The gap goes with the lexeme behind it, so that a lexeme can be put in another's place, or be
respelled, without looking at its neighbours. -/
structure Lexeme where
  gap : List Char
  kind : LexemeKind
  text : List Char
  deriving Repr, DecidableEq

namespace Lexeme

def chars (l : Lexeme) : List Char :=
  l.gap ++ l.text

def isMark (mark : Char) (l : Lexeme) : Bool :=
  l.kind = .punctuator mark

theorem isMark_iff {mark : Char} {l : Lexeme} :
    l.isMark mark = true ↔ l.kind = .punctuator mark :=
  decide_eq_true_iff

def isName (l : Lexeme) : Bool :=
  l.kind = .name

theorem isName_iff {l : Lexeme} : l.isName = true ↔ l.kind = .name :=
  decide_eq_true_iff

def isVariable (l : Lexeme) : Bool :=
  l.kind = .variable

theorem isVariable_iff {l : Lexeme} : l.isVariable = true ↔ l.kind = .variable :=
  decide_eq_true_iff

/-- Whether a lexeme has no gap, so that it touches what stands before it. Segments of a path must,
and a response key that touches a number would become part of it. -/
def touches (l : Lexeme) : Bool :=
  l.gap.isEmpty

def word (l : Lexeme) : String :=
  String.ofList l.text

/-- The name of a variable, without its dollar sign. -/
def variableName (l : Lexeme) : String :=
  String.ofList (l.text.drop 1)

/-- The lexeme with another text behind the same gap. -/
def respell (l : Lexeme) (text : List Char) : Lexeme :=
  { l with text }

end Lexeme

/-- The characters of a row of lexemes. -/
def Lexeme.charsOf (row : List Lexeme) : List Char :=
  row.flatMap Lexeme.chars

/-- The text from the first lexeme of a row through the last, without the first gap. This is what a
slice between two byte offsets of the source gives. -/
def Lexeme.spanText : List Lexeme → List Char
  | [] => []
  | first :: rest => first.text ++ Lexeme.charsOf rest

/-! ## §2 Byte offsets -/

/-- The number of bytes of a text in UTF-8. Offsets are counted so because that is how a text is
sliced: an offset inside of a character is none at all. -/
def byteLength : List Char → Nat
  | [] => 0
  | c :: rest => c.utf8Size + byteLength rest

/-- A range of bytes, the end excluded. -/
structure Span where
  start : Nat
  stop : Nat
  deriving Repr, DecidableEq

/-- The span of a lexeme whose gap begins at `offset`. -/
def Lexeme.spanAt (offset : Nat) (l : Lexeme) : Span :=
  let start := offset + byteLength l.gap
  ⟨start, start + byteLength l.text⟩

/-- The lexemes of a row with their spans, the first gap beginning at `offset`. Rows have no offsets
of their own, and get them here when someone asks. -/
def Lexeme.locate (offset : Nat) : List Lexeme → List (Span × Lexeme)
  | [] => []
  | l :: rest => (l.spanAt offset, l) :: locate (l.spanAt offset).stop rest

/-! ## §3 Scanned texts -/

/-- A text as lexemes, and the ignored characters behind the last of them. Nothing of the text is
lost (`chars_scan`). -/
structure Scan where
  lexemes : List Lexeme
  trailer : List Char
  deriving Repr, DecidableEq

namespace Scan

/-- The text that a scan was read from. -/
def chars (s : Scan) : List Char :=
  Lexeme.charsOf s.lexemes ++ s.trailer

/-- The text that a scan was read from, as a string. -/
def text (s : Scan) : String :=
  String.ofList s.chars

def cons (l : Lexeme) (s : Scan) : Scan :=
  ⟨l :: s.lexemes, s.trailer⟩

@[simp] theorem chars_cons (l : Lexeme) (s : Scan) : (s.cons l).chars = l.chars ++ s.chars := by
  simp [cons, chars, Lexeme.charsOf]

end Scan

end QueryWeave
