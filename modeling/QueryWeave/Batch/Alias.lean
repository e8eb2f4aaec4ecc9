/-!
# Aliases

Every entry of a batch gets an alias, `merge` and a code of four digits. Codes come from a list
that starts over when it is used up. They are not checked against each other.
-/

namespace QueryWeave

/-- The number of codes. -/
def aliasCodeCount : Nat := 10000

/-- A list of codes that is repeated for ever, and never empty. Random codes are such a list too, as
long as it is long enough; nothing here depends on where the codes come from. -/
structure AliasCodes where
  next : Nat
  later : List Nat
  deriving Repr, DecidableEq

namespace AliasCodes

/-- A list of codes, if there is at least one. -/
def ofList? : List Nat → Option AliasCodes
  | [] => none
  | code :: rest => some ⟨code, rest⟩

/-- The next code, and the codes behind it. The code goes to the end of the list, and comes again
once all others have. -/
def draw (codes : AliasCodes) : Nat × AliasCodes :=
  let rest := match codes.later with
    | [] => ⟨codes.next, []⟩
    | code :: rest => ⟨code, rest ++ [codes.next]⟩
  (codes.next % aliasCodeCount, rest)

def drawMany (codes : AliasCodes) : Nat → List Nat
  | 0 => []
  | count + 1 => codes.draw.1 :: drawMany codes.draw.2 count

end AliasCodes

def fourDigits (code : Nat) : String :=
  String.ofList ([code / 1000, code / 100 % 10, code / 10 % 10, code % 10].map Nat.digitChar)

def aliasOfCode (code : Nat) : String :=
  "merge" ++ fourDigits (code % aliasCodeCount)

end QueryWeave
