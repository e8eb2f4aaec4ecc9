import QueryWeave.Lexeme
import QueryWeave.Text.Blank

/-!
# Scanning

How a text is cut into lexemes. Every class of lexeme is given by the number of characters it
takes from the front of a text; the text is then cut there, so that nothing is lost and each
step leaves a shorter rest.

White space, commas, byte-order marks and comments are ignored. Strings and comments are taken
whole, so that nothing inside them is mistaken for a variable, a spread or a bracket.
-/

namespace QueryWeave

/-! ## §1 Classes of characters -/

def isNameStart (c : Char) : Bool :=
  c = '_' || c.isAlpha

def isNamePart (c : Char) : Bool :=
  c = '_' || c.isAlphanum

def isNumberStart (c : Char) : Bool :=
  c = '-' || c.isDigit

/-- Characters that continue a number, or what begins like one. Letters are among them, so that `1a`
is one lexeme and no number with a name behind it. -/
def isNumberPart (c : Char) : Bool :=
  c.isAlphanum || c = '.' || c = '+' || c = '-'

/-- Line breaks, which end a comment. -/
def isLineBreak (c : Char) : Bool :=
  c = '\n' || c = '\r'

/-- Characters that are ignored wherever they stand between lexemes. -/
def isIgnored (c : Char) : Bool :=
  c = ',' || c = '\uFEFF' || Text.isBlank c

/-! ## §2 How far a class reaches -/

/-- The length of the longest front of a text whose characters all satisfy `p`. -/
def runLength (p : Char → Bool) (cs : List Char) : Nat :=
  (cs.takeWhile p).length

/-- The number of ignored characters at the front of a text. `inComment` says that the text
begins inside a comment. -/
def gapLength (inComment : Bool) : List Char → Nat
  | [] => 0
  | c :: rest =>
    -- The line break that ends a comment is itself ignored, as white space
    if inComment && !isLineBreak c then gapLength true rest + 1
    else if c = '#' then gapLength true rest + 1
    else if isIgnored c then gapLength false rest + 1
    else 0

/-- The length of a block string behind its opening quotes: through the next three quotes that do
not stand behind a backslash, or to the end of the text.

A block string that is never closed reaches to the end: nothing behind it is a lexeme. -/
def blockLength : List Char → Nat
  -- An escaped delimiter is passed as a whole; any other backslash is a character like others
  | '\\' :: '"' :: '"' :: '"' :: rest => blockLength rest + 4
  | '"' :: '"' :: '"' :: _ => 3
  | _ :: rest => blockLength rest + 1
  | [] => 0

/-- The length of a string behind its opening quote: through the next quote or line feed that does
not stand behind a backslash, or to the end of the text.

A line feed ends a string that was left open, and belongs to it; so an open string spoils its own
line only. -/
def quotedLength : List Char → Nat
  | [] => 0
  -- A backslash at the very end escapes nothing
  | ['\\'] => 1
  | '\\' :: _ :: rest => quotedLength rest + 2
  | c :: rest => if c = '"' || c = '\n' then 1 else quotedLength rest + 1

/-- The length of a string of either form behind its first quote. Two quotes more make it a block
string, even where they were meant as the empty string with a quote behind it. -/
def stringLength : List Char → Nat
  | '"' :: '"' :: rest => blockLength rest + 2
  | rest => quotedLength rest

/-- The kind of the lexeme that begins with `c`, and how many characters of `rest` belong to it.

A dollar sign without a name directly behind it is a punctuator, and so is a single dot: neither is
the beginning of anything longer. -/
def classify (c : Char) (rest : List Char) : LexemeKind × Nat :=
  if c = '.' && rest.take 2 = ['.', '.'] then (.ellipsis, 2)
  else if c = '$' && rest.head?.any isNameStart then (.variable, runLength isNamePart rest)
  else if c = '"' then (.stringValue, stringLength rest)
  else if isNameStart c then (.name, runLength isNamePart rest)
  else if isNumberStart c then (.other, runLength isNumberPart rest)
  else (.punctuator c, 0)

/-! ## §3 Cutting -/

/-- The lexemes of a text: skip what is ignored, take the lexeme that begins there, and go on behind
it. -/
def scan (cs : List Char) : Scan :=
  let gap := gapLength false cs
  match _h : cs.drop gap with
  -- Nothing but ignored characters is left, and they become the trailer
  | [] => ⟨[], cs⟩
  | c :: rest =>
    let (kind, more) := classify c rest
    (scan (rest.drop more)).cons ⟨cs.take gap, kind, c :: rest.take more⟩
termination_by cs.length
decreasing_by
  -- The cut leaves less than `rest`, which is itself shorter than the text
  have hlen : (cs.drop gap).length = (c :: rest).length := by rw [_h]
  simp only [List.length_drop, List.length_cons] at hlen ⊢
  omega

def scanText (s : String) : Scan :=
  scan s.toList

/-- Scanning loses nothing. -/
@[simp] theorem chars_scan (cs : List Char) : (scan cs).chars = cs := by
  fun_induction scan cs with
  | case1 cs gap h => simp [Scan.chars, Lexeme.charsOf]
  | case2 cs gap c rest h kind more hc ih =>
    rw [Scan.chars_cons, ih]
    simp only [Lexeme.chars, List.append_assoc, List.cons_append, List.take_append_drop]
    rw [← h, List.take_append_drop]

end QueryWeave
