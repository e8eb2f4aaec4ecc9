import QueryWeave.Lexeme.Scanner

/-!
# Operation Templates

A template is the text of one operation and its kind. A text that does not open with an operation
keyword is wrapped: the keyword of its kind goes in front, and a blank behind.
-/

namespace QueryWeave

inductive OperationKind where
  | query
  | mutation
  deriving Repr, DecidableEq

/-- The keyword that opens an operation of a kind. -/
def OperationKind.keyword : OperationKind → String
  | query => "query"
  | mutation => "mutation"

/-- Whether a lexeme is an operation keyword. Subscriptions are known as operations, though there is
no kind for them: such a text is left as it is. -/
def Lexeme.isKeyword (l : Lexeme) : Bool :=
  l.isName && (l.word = "query" || l.word = "mutation" || l.word = "subscription")

/-- A text of one operation, ready to be compiled. The kind is what was asked for; the keyword in
the text may be another one, and that is what is sent. -/
structure Template where
  kind : OperationKind
  source : String
  deriving Repr, DecidableEq

/-- Prepare a text as an operation of a kind. Comments in front of the first lexeme do not hide a
keyword, because it is looked for among the lexemes. -/
def Template.prepare (kind : OperationKind) (source : String) : Template :=
  if (scanText source).lexemes.head?.any Lexeme.isKeyword then ⟨kind, source⟩
  else ⟨kind, kind.keyword ++ " " ++ source ++ " "⟩

end QueryWeave
