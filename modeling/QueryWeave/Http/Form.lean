/-!
# Form Encoding

Named parameters as `application/x-www-form-urlencoded`: letters, digits and four marks stand for
themselves, a space is a plus sign, and every other character is written as the bytes of its UTF-8
form, each behind a percent sign. Parameters are joined by `&`, names and values by `=`.

Forms are only written here. Reading them back stands with the proofs, where it is needed to say
that nothing is lost; character sets other than UTF-8, which readers of forms may be asked for, do
not occur.
-/

namespace QueryWeave.Http

def upperHex (n : Nat) : Char :=
  (Nat.digitChar n).toUpper

def percentByte (b : UInt8) : List Char :=
  ['%', upperHex (b.toNat / 16), upperHex (b.toNat % 16)]

/-- A character as the percent-encoded bytes of its UTF-8 form. -/
def percentChar (c : Char) : List Char :=
  (String.utf8EncodeChar c).flatMap percentByte

/-- Characters that stand for themselves in a form. -/
def isFormKept (c : Char) : Bool :=
  c.isAlphanum || c = '*' || c = '-' || c = '.' || c = '_'

/-- A character of a form. The space is the one character that is neither kept nor encoded by its
bytes. -/
def formChar (c : Char) : List Char :=
  if isFormKept c then [c] else if c = ' ' then ['+'] else percentChar c

def formText (s : String) : List Char :=
  s.toList.flatMap formChar

def formParameter (parameter : String × String) : List Char :=
  formText parameter.1 ++ '=' :: formText parameter.2

/-- Parameters in order. -/
def formChars : List (String × String) → List Char
  | [] => []
  | [parameter] => formParameter parameter
  | parameter :: next :: rest => formParameter parameter ++ '&' :: formChars (next :: rest)

end QueryWeave.Http
