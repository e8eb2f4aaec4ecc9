import QueryWeave.Json.Draft
import QueryWeave.Json.Literal

/-!
# Reading JSON

A text is cut into marks (punctuation, strings, numbers and words), and the marks are put
together on a stack of open containers. Between marks only blank, tab, line feed and carriage
return may stand. Containers may be nested 127 deep.

A text that is no JSON is refused without saying why or where: the kind of the error, its line and
its column are left out. So is what texts are not made of, bytes that are no UTF-8. Numbers are
read as integers of 64 bits or as doubles; one that is too large for a double is refused.
-/

namespace QueryWeave

/-! ## §1 Strings -/

/-- A character of a string, or a UTF-16 unit written as an escape. Units are joined to characters
in a second step, because half of a surrogate pair is no error of the syntax: the string is well
formed, and has no value. -/
inductive StringUnit where
  | char (c : Char)
  | unit (value : Nat)
  deriving Repr, DecidableEq

namespace StringUnit

/-- The value of a hexadecimal digit. -/
def hexValue? (c : Char) : Option Nat :=
  if c.isDigit then some (c.toNat - '0'.toNat)
  else if 'a' ≤ c && c ≤ 'f' then some (c.toNat - 'a'.toNat + 10)
  else if 'A' ≤ c && c ≤ 'F' then some (c.toNat - 'A'.toNat + 10)
  else none

/-- The number written by hexadecimal digits. -/
def hexNumber? (cs : List Char) : Option Nat :=
  cs.foldlM (fun value c => (hexValue? c).map (value * 16 + ·)) 0

/-- The character that a short escape stands for. -/
def shortEscape? (c : Char) : Option Char :=
  if c = '"' || c = '\\' || c = '/' then some c
  else if c = 'b' then some '\x08'
  else if c = 'f' then some '\x0C'
  else if c = 'n' then some '\n'
  else if c = 'r' then some '\r'
  else if c = 't' then some '\t'
  else none

/-- The units of a text between quotes. Fails at an unknown escape or a control character. -/
def ofChars? : List Char → Option (List StringUnit)
  | [] => some []
  -- Four digits always: a longer escape has its other digits for characters
  | '\\' :: 'u' :: a :: b :: c :: d :: rest => do
    let value ← hexNumber? [a, b, c, d]
    let others ← ofChars? rest
    return .unit value :: others
  | '\\' :: c :: rest => do
    let meant ← shortEscape? c
    let others ← ofChars? rest
    return .char meant :: others
  | c :: rest =>
    if c = '\\' || c.toNat < 0x20 then none else (ofChars? rest).map (.char c :: ·)

def isLeading (value : Nat) : Bool := 0xD800 ≤ value && value < 0xDC00

def isTrailing (value : Nat) : Bool := 0xDC00 ≤ value && value < 0xE000

/-- The character of a surrogate pair. -/
def pairChar (leading trailing : Nat) : Char :=
  Char.ofNat (0x10000 + (leading - 0xD800) * 0x400 + (trailing - 0xDC00))

/-- The characters of a row of units, unless half a surrogate pair stands alone. The second half
must be an escape too, directly behind the first. -/
def join? : List StringUnit → Option (List Char)
  | [] => some []
  | .char c :: rest => (join? rest).map (c :: ·)
  -- Two escapes in a row: a pair, or two characters of their own
  | .unit leading :: .unit trailing :: rest =>
    if isLeading leading then
      if isTrailing trailing then (join? rest).map (pairChar leading trailing :: ·) else none
    else if isTrailing leading then none
    else (join? (.unit trailing :: rest)).map (Char.ofNat leading :: ·)
  | .unit value :: rest =>
    if isLeading value || isTrailing value then none
    else (join? rest).map (Char.ofNat value :: ·)

end StringUnit

/-- The length of a string behind its opening quote, closing quote included. Whether the escapes
inside mean anything is left to `StringUnit.ofChars?`. -/
def closingQuote : List Char → Option Nat
  | [] => none
  | '"' :: _ => some 1
  | ['\\'] => none
  | '\\' :: _ :: rest => (closingQuote rest).map (· + 2)
  | _ :: rest => (closingQuote rest).map (· + 1)

/-! ## §2 Marks -/

/-- A mark of a JSON text. Marks are found from left to right without looking at the containers
around them, and a text fails here if some part of it is no mark. -/
inductive JsonMark where
  /-- A bracket, brace, colon or comma. -/
  | punctuation (c : Char)
  /-- A string, unless it holds half a surrogate pair. -/
  | string (value : Option String)
  /-- A number or a word. -/
  | atom (draft : Draft)
  deriving Repr

namespace JsonMark

def isBlank (c : Char) : Bool :=
  c = ' ' || c = '\t' || c = '\n' || c = '\r'

def isPunctuation (c : Char) : Bool :=
  c = '{' || c = '}' || c = '[' || c = ']' || c = ':' || c = ','

def isNumberChar (c : Char) : Bool :=
  c.isDigit || c = '-' || c = '+' || c = '.' || c = 'e' || c = 'E'

/-- The draft of a word. -/
def wordDraft? (word : List Char) : Option Draft :=
  if word = ['n', 'u', 'l', 'l'] then some .null
  else if word = ['t', 'r', 'u', 'e'] then some (.bool true)
  else if word = ['f', 'a', 'l', 's', 'e'] then some (.bool false)
  else none

/-- The draft of a number literal. -/
def numberDraft? (literal : List Char) : Option Draft :=
  (Literal.ofChars? literal).map fun l => (l.number.map Draft.number).getD .beyond

/-- The mark that begins with `c`, and how many characters of `rest` belong to it. A number literal
reaches as far as characters of numbers do, and is then accepted or refused as a whole. -/
def read? (c : Char) (rest : List Char) : Option (JsonMark × Nat) :=
  if isPunctuation c then some (.punctuation c, 0)
  else if c = '"' then do
    -- The end of the string is found first, and its escapes are looked at then
    let length ← closingQuote rest
    let units ← StringUnit.ofChars? (rest.take (length - 1))
    return (.string ((StringUnit.join? units).map String.ofList), length)
  else if c = '-' || c.isDigit then do
    -- A literal such as `1-2` is taken whole, and refused whole
    let more := rest.takeWhile isNumberChar
    let draft ← numberDraft? (c :: more)
    return (.atom draft, more.length)
  else do
    let more := rest.takeWhile Char.isAlpha
    let draft ← wordDraft? (c :: more)
    return (.atom draft, more.length)

/-- The marks of a text. -/
def ofChars? (cs : List Char) : Option (List JsonMark) :=
  match cs with
  | [] => some []
  | c :: rest =>
    if isBlank c then ofChars? rest
    else
      match read? c rest with
      | none => none
      | some (mark, more) => (ofChars? (rest.drop more)).map (mark :: ·)
termination_by cs.length
decreasing_by
  · simp
  · simp only [List.length_drop, List.length_cons]
    omega

end JsonMark

/-! ## §3 Building drafts -/

/-- How deep containers may be nested. -/
def maxNesting : Nat := 127

/-- An open container with its parts so far, the last one first. -/
inductive OpenContainer where
  | array (items : List Draft)
  /-- The name is the one whose value is awaited. -/
  | object (members : List (Option String × Draft)) (name : Option String)
  deriving Repr

/-- What may come next. The state says this by itself, so that the containers need to be looked at
only where a mark opens or closes one. -/
inductive Awaited where
  | value
  | valueOrClose
  | name
  | nameOrClose
  | colon
  | commaOrClose
  /-- The text is complete. -/
  | nothing (result : Draft)
  deriving Repr

/-- A partly read text: the open containers, innermost first, and what may come next. -/
structure Reading where
  stack : List OpenContainer
  awaited : Awaited
  deriving Repr

namespace Reading

def start : Reading := ⟨[], .value⟩

/-- A value is complete: the whole text is, or a part of the innermost open container. -/
def complete (draft : Draft) : List OpenContainer → Reading
  | [] => ⟨[], .nothing draft⟩
  | .array items :: outer => ⟨.array (draft :: items) :: outer, .commaOrClose⟩
  | .object members name :: outer =>
    ⟨.object ((name, draft) :: members) none :: outer, .commaOrClose⟩

/-- Close the innermost container, whose bracket is `c`. A container that is nested too deeply is
well formed all the same, and only has no value. -/
def close? (c : Char) : List OpenContainer → Option Reading
  | [] => none
  | container :: outer =>
    let tooDeep := maxNesting < outer.length + 1
    match container with
    | .array items =>
      if c = ']' then some (complete (if tooDeep then .beyond else .array items.reverse) outer)
      else none
    | .object members _ =>
      if c = '}' then some (complete (if tooDeep then .beyond else .object members.reverse) outer)
      else none

def begin? (mark : JsonMark) (stack : List OpenContainer) : Option Reading :=
  match mark with
  | .atom draft => some (complete draft stack)
  | .string value => some (complete ((value.map Draft.string).getD .beyond) stack)
  | .punctuation c =>
    if c = '[' then some ⟨.array [] :: stack, .valueOrClose⟩
    else if c = '{' then some ⟨.object [] none :: stack, .nameOrClose⟩
    else none

/-- Take the name of a member. -/
def name? (mark : JsonMark) (stack : List OpenContainer) : Option Reading :=
  match mark, stack with
  | .string value, .object members _ :: outer => some ⟨.object members value :: outer, .colon⟩
  | _, _ => none

def closing? : JsonMark → Option Char
  | .punctuation c => if c = ']' || c = '}' then some c else none
  | _ => none

/-- Take one mark: the only place where the grammar of JSON is spelled out. A mark that may not come
next makes the text no JSON. -/
def step? (r : Reading) (mark : JsonMark) : Option Reading :=
  match r.awaited with
  | .value => begin? mark r.stack
  | .valueOrClose =>
    match closing? mark with
    | some c => close? c r.stack
    | none => begin? mark r.stack
  | .name => name? mark r.stack
  | .nameOrClose =>
    match closing? mark with
    | some c => close? c r.stack
    | none => name? mark r.stack
  | .colon =>
    match mark with
    | .punctuation c => if c = ':' then some { r with awaited := .value } else none
    | _ => none
  | .commaOrClose =>
    match mark with
    | .punctuation c =>
      if c = ',' then
        match r.stack with
        | .array _ :: _ => some { r with awaited := .value }
        | .object _ _ :: _ => some { r with awaited := .name }
        | [] => none
      -- Anything that is no comma has to close the container
      else close? c r.stack
    | _ => none
  | .nothing _ => none

/-- The draft, once the text is complete. -/
def result? (r : Reading) : Option Draft :=
  match r.awaited with
  | .nothing draft => some draft
  | _ => none

end Reading

/-- The draft of a JSON text, if it is well formed: cut into marks, and the marks put together. -/
def Draft.ofText? (text : String) : Option Draft := do
  let marks ← JsonMark.ofChars? text.toList
  let reading ← marks.foldlM Reading.step? Reading.start
  reading.result?

/-- The value of a JSON text, if it is well formed and all of it has a value. -/
def Json.ofText? (text : String) : Option Json :=
  Draft.ofText? text >>= Draft.value?

end QueryWeave
