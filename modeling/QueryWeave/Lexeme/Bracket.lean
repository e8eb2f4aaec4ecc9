import QueryWeave.Lexeme

/-!
# Brackets

Where the bracket that opens a part of a template is closed. The three kinds of bracket are
counted together: a closing bracket closes the bracket opened last, whatever its kind.
-/

namespace QueryWeave

def Lexeme.opens (l : Lexeme) : Bool :=
  l.isMark '{' || l.isMark '(' || l.isMark '['

def Lexeme.closes (l : Lexeme) : Bool :=
  l.isMark '}' || l.isMark ')' || l.isMark ']'

/-- A row of lexemes cut at a closing bracket. -/
structure Closed where
  inner : List Lexeme
  closer : Lexeme
  rest : List Lexeme
  deriving Repr, DecidableEq

namespace Closed

def cons (l : Lexeme) (c : Closed) : Closed :=
  { c with inner := l :: c.inner }

def row (c : Closed) : List Lexeme :=
  c.inner ++ c.closer :: c.rest

end Closed

/-- Cut a row at the lexeme that closes the last of `depth` open brackets. There is none if the row
ends first, or if a bracket closes while none is open.

One count serves all three kinds, so that `]` closes what `{` opened. As long as every bracket is
closed by one of its own kind, the count does no harm (`BalanceLaws.accepted`). -/
def closeAt (depth : Nat) : List Lexeme → Option Closed
  | [] => none
  | l :: more =>
    if l.opens then (closeAt (depth + 1) more).map (Closed.cons l)
    else if l.closes then
      match depth with
      | 0 => none
      | 1 => some ⟨[], l, more⟩
      | deeper + 2 => (closeAt (deeper + 1) more).map (Closed.cons l)
    else (closeAt depth more).map (Closed.cons l)

/-- The index of the lexeme that closes the first bracket opened at or behind `start`. -/
def matchingClose (row : List Lexeme) (start : Nat) : Option Nat :=
  (closeAt 0 (row.drop start)).map fun closed => start + closed.inner.length

/-- A cut loses no lexeme. -/
theorem row_of_closeAt {depth : Nat} {row : List Lexeme} {c : Closed}
    (h : closeAt depth row = some c) : c.row = row := by
  induction row generalizing depth c with
  | nil => simp [closeAt] at h
  | cons l more ih =>
    have step : ∀ d, (closeAt d more).map (Closed.cons l) = some c → c.row = l :: more := by
      intro d hd
      -- The lexeme goes in front of what was cut behind it
      obtain ⟨inner, hinner, rfl⟩ := Option.map_eq_some_iff.1 hd
      rw [← ih hinner]
      rfl
    simp only [closeAt] at h
    split at h
    · exact step _ h
    · split at h
      · split at h
        · simp at h
        · simp only [Option.some.injEq] at h
          subst h
          rfl
        · exact step _ h
      · exact step _ h

end QueryWeave
