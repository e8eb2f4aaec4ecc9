/-!
# Blank Characters

The characters with the Unicode property `White_Space`, and the removal of blank characters
from the ends of a text. A byte-order mark is not blank.
-/

namespace QueryWeave.Text

/-- The ranges of the property `White_Space`, both ends included. -/
def blankRanges : List (Nat × Nat) :=
  [(0x0009, 0x000D), (0x0020, 0x0020), (0x0085, 0x0085), (0x00A0, 0x00A0), (0x1680, 0x1680),
   (0x2000, 0x200A), (0x2028, 0x2029), (0x202F, 0x202F), (0x205F, 0x205F), (0x3000, 0x3000)]

def isBlank (c : Char) : Bool :=
  blankRanges.any fun range => range.1 ≤ c.toNat && c.toNat ≤ range.2

def dropBlank (cs : List Char) : List Char :=
  cs.dropWhile isBlank

/-- Drop the blank characters at both ends. -/
def trimBlank (cs : List Char) : List Char :=
  (dropBlank (dropBlank cs).reverse).reverse

/-- A string without blank characters at its front. -/
def trimStart (s : String) : String :=
  String.ofList (dropBlank s.toList)

/-- A string without blank characters at its ends. -/
def trim (s : String) : String :=
  String.ofList (trimBlank s.toList)

end QueryWeave.Text
