import QueryWeave.Lexeme

/-!
# Variable Declarations

The entries of an operation's signature, read from the lexemes between its parentheses and
written back between new ones. An entry begins at a variable. Its type runs to an equals sign or
at sign outside square brackets, or to the next variable; its default value runs from the
equals sign to an at sign or the next variable. Directives are dropped.
-/

namespace QueryWeave

/-- A declared variable, without its dollar sign. -/
structure Declaration where
  name : String
  typeText : String
  defaultText : Option String
  deriving Repr, DecidableEq

namespace Declaration

/-! ## §1 Writing -/

/-- A declaration as it stands in a signature. -/
def text (d : Declaration) : String :=
  match d.defaultText with
  | none => "$" ++ d.name ++ ": " ++ d.typeText
  | some value => "$" ++ d.name ++ ": " ++ d.typeText ++ " = " ++ value

/-- Declarations as they stand between the parentheses. -/
def listText (ds : List Declaration) : String :=
  ", ".intercalate (ds.map text)

/-! ## §2 Reading -/

/-- Skip the colon behind a variable, if there is one. -/
def skipColon : List Lexeme → List Lexeme
  | [] => []
  | l :: rest => if l.isMark ':' then rest else l :: rest

/-- The number of lexemes of a type inside `depth` square brackets. The brackets matter because an
equals sign inside of them would belong to the type, and ends nothing. -/
def typeLength (depth : Nat) : List Lexeme → Nat
  | [] => 0
  | l :: rest =>
    if l.isVariable then 0
    else if depth = 0 && (l.isMark '=' || l.isMark '@') then 0
    else if l.isMark '[' then typeLength (depth + 1) rest + 1
    -- A bracket too many is part of the type, and leads no further out
    else if l.isMark ']' then typeLength (depth - 1) rest + 1
    else typeLength depth rest + 1

/-- The number of lexemes of a default value. A variable ends it, since constants hold none, and so
does the directive behind it. -/
def defaultLength (row : List Lexeme) : Nat :=
  (row.takeWhile fun l => !l.isVariable && !l.isMark '@').length

def partText (row : List Lexeme) : String :=
  String.ofList (Lexeme.spanText row)

/-- Skipping a colon leaves no more lexemes. -/
theorem length_skipColon_le (row : List Lexeme) : (skipColon row).length ≤ row.length := by
  unfold skipColon
  split
  · simp
  · split <;> simp

/-- The declarations in a row of lexemes. What stands in front of the first variable, or behind a
type or a default, belongs to no declaration and is passed over. -/
def readList : List Lexeme → List Declaration
  | [] => []
  | l :: rest =>
    -- An entry begins at a variable, and at nothing else
    if l.isVariable then
      let row := skipColon rest
      let typeRow := row.take (typeLength 0 row)
      match _h : row.drop (typeLength 0 row) with
      | [] => [⟨l.variableName, partText typeRow, none⟩]
      -- Either a default follows, or a directive or another variable
      | next :: more =>
        if next.isMark '=' then
          let defaultRow := more.take (defaultLength more)
          ⟨l.variableName, partText typeRow, some (partText defaultRow)⟩ ::
            readList (more.drop (defaultLength more))
        else ⟨l.variableName, partText typeRow, none⟩ :: readList (next :: more)
    else readList rest
termination_by row => row.length
decreasing_by
  all_goals
    try
      have hrow := length_skipColon_le rest
      have hlen : (row.drop (typeLength 0 row)).length = (next :: more).length := by rw [_h]
      simp only [List.length_drop, List.length_cons, row] at hlen hrow ⊢
      omega
  simp

end Declaration

end QueryWeave
