import Mathlib.Data.List.Basic
import QueryWeave.Lexeme

/-!
# Spans of Lexemes

Where the lexemes of a text stand, in bytes. The spans of a part of a row are those of its lexemes
in the whole row; the part extends from where the first of them begins to where the last one ends.

- `Lexeme.locate_append`: a row behind another begins where that ends.
- `Lexeme.extent_spansBehind`: the extent of a part is that of its text.
-/

namespace QueryWeave

/-! ## §1 Lengths in bytes -/

@[simp] theorem byteLength_nil : byteLength [] = 0 := rfl

/-- Bytes add up, whatever characters they belong to. -/
@[simp] theorem byteLength_append (first second : List Char) :
    byteLength (first ++ second) = byteLength first + byteLength second := by
  induction first with
  | nil => simp
  | cons c rest ih => simp only [List.cons_append, byteLength, ih, Nat.add_assoc]

/-! ## §2 Located rows -/

/-- The range of bytes from the beginning of the first span through the end of the last. Parts of an
operation are given to a caller as such ranges. -/
def Span.extent : List Span → Option Span
  | [] => none
  | first :: rest => some ⟨first.start, ((first :: rest).getLast (List.cons_ne_nil _ _)).stop⟩

namespace Lexeme

@[simp] theorem length_locate (offset : Nat) (row : List Lexeme) :
    (locate offset row).length = row.length := by
  induction row generalizing offset with
  | nil => rfl
  | cons l rest ih => simp [locate, ih]

theorem stop_spanAt (offset : Nat) (l : Lexeme) :
    (l.spanAt offset).stop = offset + byteLength l.chars := by
  simp [spanAt, chars, Nat.add_assoc]

/-- A row behind another begins where that ends. -/
theorem locate_append (offset : Nat) (first second : List Lexeme) :
    locate offset (first ++ second) =
      locate offset first ++ locate (offset + byteLength (charsOf first)) second := by
  -- On the row in front, whose lexemes move the offset one by one
  induction first generalizing offset with
  | nil => rfl
  | cons l rest ih =>
    have hoffset : (l.spanAt offset).stop + byteLength (charsOf rest) =
        offset + byteLength (charsOf (l :: rest)) := by
      simp [stop_spanAt, charsOf, Nat.add_assoc]
    simp only [List.cons_append, locate, ih, hoffset]

/-- The spans of the lexemes of a part, in the row in which it stands behind `front`. The definition
locates the whole row, as a tokenizer does, and only then looks at the part. -/
def spansBehind (front part : List Lexeme) : List Span :=
  ((locate 0 (front ++ part)).drop front.length).map Prod.fst

theorem spansBehind_eq (front part : List Lexeme) :
    spansBehind front part = (locate (byteLength (charsOf front)) part).map Prod.fst := by
  have hdrop := @List.drop_left _ (locate 0 front) (locate (0 + byteLength (charsOf front)) part)
  rw [length_locate] at hdrop
  rw [spansBehind, locate_append, hdrop, Nat.zero_add]

/-- Helper: the last lexeme of a row ends where the row ends. -/
private theorem getLast_locate (offset : Nat) (l : Lexeme) (rest : List Lexeme)
    (h : (locate offset (l :: rest)).map Prod.fst ≠ []) :
    (((locate offset (l :: rest)).map Prod.fst).getLast h).stop =
      offset + byteLength (charsOf (l :: rest)) := by
  induction rest generalizing offset l with
  | nil => simp [locate, stop_spanAt, charsOf]
  | cons next more ih =>
    have hrest := ih (l.spanAt offset).stop next (by simp [locate])
    simp only [locate, List.map_cons, List.getLast_cons_cons] at hrest ⊢
    rw [hrest, stop_spanAt]
    simp [charsOf, Nat.add_assoc]

/-- A row extends over its text, without the gap in front. -/
theorem extent_locate (offset : Nat) (first : Lexeme) (rest : List Lexeme) :
    Span.extent ((locate offset (first :: rest)).map Prod.fst) =
      some ⟨offset + byteLength first.gap,
        offset + byteLength first.gap + byteLength (spanText (first :: rest))⟩ := by
  have hlast := getLast_locate offset first rest (by simp [locate])
  simp only [locate, List.map_cons, Span.extent] at hlast ⊢
  -- The gap of the first lexeme is the only text of the row that lies outside
  rw [hlast]
  simp [spanAt, spanText, charsOf, chars, Nat.add_assoc]

/-- A part extends over its text, without the gap in front. -/
theorem extent_spansBehind (front : List Lexeme) (first : Lexeme) (rest : List Lexeme) :
    Span.extent (spansBehind front (first :: rest)) =
      some ⟨byteLength (charsOf front ++ first.gap),
        byteLength (charsOf front ++ first.gap) + byteLength (spanText (first :: rest))⟩ := by
  rw [spansBehind_eq, extent_locate, byteLength_append]

@[simp] theorem extent_spansBehind_nil (front : List Lexeme) :
    Span.extent (spansBehind front []) = none := by
  rw [spansBehind_eq]
  rfl

end Lexeme

end QueryWeave
