import QueryWeave.Lexeme.Bracket
import Mathlib.Tactic.SplitIfs

/-!
# Balanced Rows

A row is balanced if it closes the brackets it opens and no others, all kinds of bracket counted
together. Behind a balanced row the search for a closing bracket stands where it stood in front
of it; so the part found between two brackets is balanced, and a balanced part between two
brackets is found.

- `closeAt_append`: a search passes through a balanced row.
- `balanced_of_closeAt`: what a search encloses is balanced.
-/

namespace QueryWeave

/-! ## §1 Counting -/

/-- The number of brackets that are open behind a row, `depth` being open in front of it. There is
none if the row closes a bracket while none is open. Brackets of all kinds are counted together, as
the search for a closing bracket does. -/
def depthBehind (depth : Nat) : List Lexeme → Option Nat
  | [] => some depth
  | l :: rest =>
    if l.opens then depthBehind (depth + 1) rest
    else if l.closes then
      match depth with
      | 0 => none
      | outer + 1 => depthBehind outer rest
    else depthBehind depth rest

/-- A row that closes the brackets it opens and no others. -/
def Balanced (row : List Lexeme) : Prop :=
  depthBehind 0 row = some 0

/-- What a lexeme does to brackets is a matter of its kind. -/
theorem brackets_congr {l m : Lexeme} (h : l.kind = m.kind) :
    l.opens = m.opens ∧ l.closes = m.closes := by
  have hmark : ∀ mark, l.isMark mark = m.isMark mark := fun mark => by
    simp only [Lexeme.isMark, h]
  exact ⟨by simp only [Lexeme.opens, hmark], by simp only [Lexeme.closes, hmark]⟩

/-- An opening bracket is one of three marks. -/
theorem Lexeme.opens_iff {l : Lexeme} :
    l.opens = true ↔
      l.kind = .punctuator '{' ∨ l.kind = .punctuator '(' ∨ l.kind = .punctuator '[' := by
  simp only [opens, isMark, Bool.or_eq_true, decide_eq_true_eq, or_assoc]

/-- So is a closing bracket. -/
theorem Lexeme.closes_iff {l : Lexeme} :
    l.closes = true ↔
      l.kind = .punctuator '}' ∨ l.kind = .punctuator ')' ∨ l.kind = .punctuator ']' := by
  simp only [closes, isMark, Bool.or_eq_true, decide_eq_true_eq, or_assoc]

/-- A lexeme that is no mark is no bracket. -/
theorem not_bracket {l : Lexeme} (h : ∀ mark, l.kind ≠ .punctuator mark) :
    l.opens = false ∧ l.closes = false := by
  simp [Lexeme.opens, Lexeme.closes, Lexeme.isMark, h]

/-- Whether a lexeme is a bracket. -/
def Lexeme.isBracket (l : Lexeme) : Bool :=
  l.opens || l.closes

theorem Lexeme.isBracket_eq_false {l : Lexeme} :
    l.isBracket = false ↔ l.opens = false ∧ l.closes = false := by
  simp [isBracket]

/-- No bracket both opens and closes. -/
theorem not_opens_of_closes {l : Lexeme} (h : l.closes = true) : l.opens = false := by
  rcases Lexeme.closes_iff.1 h with hkind | hkind | hkind <;>
    simp [Lexeme.opens, Lexeme.isMark, hkind]

theorem depthBehind_append (depth : Nat) (first second : List Lexeme) :
    depthBehind depth (first ++ second) =
      (depthBehind depth first).bind fun behind => depthBehind behind second := by
  induction first generalizing depth with
  | nil => rfl
  | cons l rest ih =>
    simp only [List.cons_append, depthBehind]
    -- Only a closing bracket can fail, and it fails for the front as it does for the whole
    split_ifs
    · exact ih _
    · cases depth with
      | zero => rfl
      | succ outer => exact ih outer
    · exact ih _

/-- Brackets open further out do not matter to a row that gets by without them. So what is found
inside a bracket can be said as though it stood alone. -/
theorem depthBehind_add {depth behind : Nat} {row : List Lexeme}
    (h : depthBehind depth row = some behind) (outer : Nat) :
    depthBehind (depth + outer) row = some (behind + outer) := by
  induction row generalizing depth with
  | nil =>
    cases h
    rfl
  | cons l rest ih =>
    simp only [depthBehind] at h ⊢
    -- A row that never closes what is open in front of it does not see what is open further out
    split_ifs at h ⊢
    · rw [Nat.add_right_comm]
      exact ih h
    · cases depth with
      | zero => cases h
      | succ inner =>
        rw [Nat.add_right_comm]
        exact ih h
    · exact ih h

theorem Balanced.depthBehind {row : List Lexeme} (h : Balanced row) (depth : Nat) :
    depthBehind depth row = some depth := by
  have hadd := depthBehind_add h depth
  rwa [Nat.zero_add] at hadd

/-- Only the kinds of the lexemes count. -/
theorem depthBehind_congr {row other : List Lexeme}
    (h : row.map Lexeme.kind = other.map Lexeme.kind) (depth : Nat) :
    depthBehind depth row = depthBehind depth other := by
  -- Both rows are taken apart together; rows of different lengths do not have the same kinds
  induction row generalizing other depth with
  | nil =>
    cases other with
    | nil => rfl
    | cons => cases h
  | cons l rest ih =>
    cases other with
    | nil => cases h
    | cons m more =>
      simp only [List.map_cons, List.cons.injEq] at h
      obtain ⟨hkind, hrest⟩ := h
      obtain ⟨hopens, hcloses⟩ := brackets_congr hkind
      cases depth <;> simp only [depthBehind, hopens, hcloses, ih hrest]

theorem Balanced.congr {row other : List Lexeme} (h : Balanced row)
    (hkinds : row.map Lexeme.kind = other.map Lexeme.kind) : Balanced other := by
  unfold Balanced at h ⊢
  rw [← depthBehind_congr hkinds]
  exact h

/-- Only the brackets count. -/
theorem depthBehind_brackets (row : List Lexeme) (depth : Nat) :
    depthBehind depth (row.filter Lexeme.isBracket) = depthBehind depth row := by
  induction row generalizing depth with
  | nil => rfl
  | cons l rest ih =>
    by_cases hbracket : l.isBracket = true
    · rw [List.filter_cons_of_pos hbracket]
      cases depth <;> simp only [depthBehind, ih]
    · rw [Bool.not_eq_true] at hbracket
      obtain ⟨hopens, hcloses⟩ := Lexeme.isBracket_eq_false.1 hbracket
      rw [List.filter_cons_of_neg (by simp [hbracket])]
      simp [depthBehind, hopens, hcloses, ih]

theorem balanced_brackets {row : List Lexeme} :
    Balanced (row.filter Lexeme.isBracket) ↔ Balanced row := by
  rw [Balanced, depthBehind_brackets, Balanced]

/-! ## §2 Balanced rows -/

@[simp] theorem balanced_nil : Balanced [] := rfl

theorem Balanced.append {first second : List Lexeme} (hfirst : Balanced first)
    (hsecond : Balanced second) : Balanced (first ++ second) := by
  unfold Balanced at hfirst hsecond ⊢
  rw [depthBehind_append, hfirst]
  exact hsecond

theorem balanced_flatten {rows : List (List Lexeme)} (h : ∀ row ∈ rows, Balanced row) :
    Balanced rows.flatten := by
  induction rows with
  | nil => rfl
  | cons row rest ih =>
    rw [List.flatten_cons]
    exact (h row List.mem_cons_self).append (ih fun r hr => h r (List.mem_cons_of_mem _ hr))

/-- A lexeme that is no bracket is balanced by itself. -/
theorem balanced_singleton {l : Lexeme} (hopens : l.opens = false) (hcloses : l.closes = false) :
    Balanced [l] := by
  simp [Balanced, depthBehind, hopens, hcloses]

theorem Balanced.cons {l : Lexeme} {row : List Lexeme} (hopens : l.opens = false)
    (hcloses : l.closes = false) (h : Balanced row) : Balanced (l :: row) :=
  (balanced_singleton hopens hcloses).append h

/-- A balanced row between two brackets is balanced. -/
theorem Balanced.enclose {opener closer : Lexeme} {row : List Lexeme} (h : Balanced row)
    (hopens : opener.opens = true) (hcloses : closer.closes = true) :
    Balanced (opener :: row ++ [closer]) := by
  have hcloser := not_opens_of_closes hcloses
  unfold Balanced
  -- Behind the opener the row is read at depth one, where the closer leads back
  rw [List.cons_append, QueryWeave.depthBehind, if_pos hopens, depthBehind_append, h.depthBehind 1]
  simp [QueryWeave.depthBehind, hcloser, hcloses]

/-! ## §3 The search for a closing bracket -/

/-- A search that does not end inside a row goes on behind it. The row may close brackets that are
open in front of it, as long as the one that the search is for stays open. -/
theorem closeAt_append {depth behind : Nat} {front : List Lexeme}
    (h : depthBehind depth front = some behind) (rest : List Lexeme) :
    closeAt (depth + 1) (front ++ rest) =
      (closeAt (behind + 1) rest).map fun closed =>
        { closed with inner := front ++ closed.inner } := by
  induction front generalizing depth with
  | nil =>
    cases h
    simp
  | cons l more ih =>
    -- Whatever the lexeme does to the depth, it goes in front of what is found behind it
    have hstep : ∀ d, depthBehind d more = some behind →
        (closeAt (d + 1) (more ++ rest)).map (Closed.cons l) =
          (closeAt (behind + 1) rest).map fun closed =>
            { closed with inner := l :: more ++ closed.inner } := by
      intro d hd
      rw [ih hd, Option.map_map]
      rfl
    simp only [depthBehind] at h
    simp only [List.cons_append, closeAt]
    split_ifs at h ⊢
    · exact hstep _ h
    · cases depth with
      | zero => cases h
      | succ outer => exact hstep outer h
    · exact hstep _ h

/-- A balanced row in front of a closing bracket is all that the bracket encloses. -/
theorem closeAt_balanced {inner : List Lexeme} (h : Balanced inner) {closer : Lexeme}
    (hcloses : closer.closes = true) (rest : List Lexeme) :
    closeAt 1 (inner ++ closer :: rest) = some ⟨inner, closer, rest⟩ := by
  rw [closeAt_append h]
  simp [closeAt, not_opens_of_closes hcloses, hcloses]

/-- Helper: what a search encloses leads back to where it began. -/
private theorem depthBehind_of_closeAt {depth : Nat} {row : List Lexeme} {closed : Closed}
    (h : closeAt (depth + 1) row = some closed) :
    depthBehind depth closed.inner = some 0 ∧ closed.closer.closes = true := by
  induction row generalizing depth closed with
  | nil => cases h
  | cons l rest ih =>
    simp only [closeAt] at h
    split_ifs at h with hopens hcloses
    · obtain ⟨later, hlater, rfl⟩ := Option.map_eq_some_iff.1 h
      have hrest := ih hlater
      refine ⟨?_, hrest.2⟩
      simpa [Closed.cons, depthBehind, hopens] using hrest.1
    · cases depth with
      | zero =>
        -- The search ends here
        cases h
        exact ⟨rfl, hcloses⟩
      | succ outer =>
        obtain ⟨later, hlater, rfl⟩ := Option.map_eq_some_iff.1 h
        have hrest := ih hlater
        refine ⟨?_, hrest.2⟩
        simpa [Closed.cons, depthBehind, hopens, hcloses] using hrest.1
    · obtain ⟨later, hlater, rfl⟩ := Option.map_eq_some_iff.1 h
      have hrest := ih hlater
      refine ⟨?_, hrest.2⟩
      simpa [Closed.cons, depthBehind, hopens, hcloses] using hrest.1

/-- What a search encloses is balanced, and what ends it is a closing bracket. With
`closeAt_balanced` this characterises the search. -/
theorem balanced_of_closeAt {row : List Lexeme} {closed : Closed}
    (h : closeAt 1 row = some closed) :
    Balanced closed.inner ∧ closed.closer.closes = true :=
  depthBehind_of_closeAt h

end QueryWeave
