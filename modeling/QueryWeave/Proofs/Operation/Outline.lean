import QueryWeave.Operation.Outline
import QueryWeave.Proofs.Lexeme.Balance

/-!
# Laws of Outlines

An outline is a way of cutting a text: put together again, its parts are the text. Its brackets
are mates, with balanced rows between them. Conversely, a row that is put together from such parts
is cut into them again.

- `Outline.Parted`: parts that an operation can be cut into.
- `Outline.parted_of_ofScan?`: the parts of an outline make up the text.
- `Outline.ofScan?_of_parted`: parts are found again.
-/

namespace QueryWeave

/-! ## §1 Cutting loses nothing -/

theorem cutLead_append (row : List Lexeme) : (cutLead row).1 ++ (cutLead row).2.2 = row := by
  unfold cutLead
  split
  · rfl
  · split
    · split
      · rfl
      · split <;> rfl
    · rfl

/-- The keyword and the name are names. -/
theorem names_cutLead (row : List Lexeme) : ∀ l ∈ (cutLead row).1, l.kind = .name := by
  unfold cutLead
  -- One case for each way the front can be cut: no keyword, a keyword alone, or a keyword and a
  -- name
  split
  · simp
  · split
    · rename_i keyword rest hkeyword
      have hname : keyword.kind = .name := by
        simp only [Lexeme.isKeyword, Bool.and_eq_true] at hkeyword
        exact Lexeme.isName_iff.1 hkeyword.1
      split
      · simpa using hname
      · split
        · rename_i hnext
          simpa [hname] using Lexeme.isName_iff.1 hnext
        · simpa using hname
    · simp

/-- A part between a bracket and its mate, found by counting: the closing bracket need not be of the
kind of the opening one (`Enclosed.Nests` asks for that). -/
structure Enclosed.Closed (e : Enclosed) (opener : Char) : Prop where
  opener : e.opener.isMark opener = true
  inner : Balanced e.inner
  closer : e.closer.closes = true

theorem cutSignature_inversion {row rest : List Lexeme} {signature : Option Enclosed}
    (h : cutSignature row = some (signature, rest)) :
    (signature.map Enclosed.row).getD [] ++ rest = row ∧
      ∀ e ∈ signature, e.Closed '(' := by
  unfold cutSignature at h
  split at h
  · cases h
    exact ⟨rfl, by simp⟩
  · rename_i l more
    split at h
    · rename_i hopens
      obtain ⟨closed, hclosed, heq⟩ := Option.map_eq_some_iff.1 h
      cases heq
      -- The search went from the parenthesis to its mate
      obtain ⟨hbalanced, hcloses⟩ := balanced_of_closeAt hclosed
      refine ⟨?_, fun e he => ?_⟩
      · rw [← row_of_closeAt hclosed]
        simp [Enclosed.row, QueryWeave.Closed.row]
      · cases he
        exact ⟨hopens, hbalanced, hcloses⟩
    · cases h
      exact ⟨rfl, by simp⟩

theorem cutSelection_inversion {row middle after : List Lexeme} {selection : Enclosed}
    (h : cutSelection row = some (middle, selection, after)) :
    middle ++ selection.row ++ after = row ∧ selection.Closed '{' ∧
      ∀ l ∈ middle, l.isMark '{' = false := by
  unfold cutSelection at h
  split at h
  · cases h
  · rename_i opener rest hdrop
    obtain ⟨closed, hclosed, heq⟩ := Option.map_eq_some_iff.1 h
    cases heq
    obtain ⟨hbalanced, hcloses⟩ := balanced_of_closeAt hclosed
    -- The first lexeme that is not passed over is a brace
    have hopener : opener.isMark '{' = true := by
      have hhead := List.head?_dropWhile_not (fun l => !l.isMark '{') row
      rw [hdrop] at hhead
      simpa using hhead
    refine ⟨?_, ⟨hopener, hbalanced, hcloses⟩, fun l hl => ?_⟩
    · have happend := List.takeWhile_append_dropWhile (p := fun l => !l.isMark '{') (l := row)
      rw [hdrop, ← row_of_closeAt hclosed] at happend
      simpa [Enclosed.row, QueryWeave.Closed.row] using happend
    · have hall := List.all_takeWhile (p := fun l => !l.isMark '{') (l := row)
      simpa using List.all_eq_true.1 hall l hl

namespace Outline

/-- Parts that an operation can be cut into. This is what an outline is known to satisfy for any
text, so it speaks of counted brackets, and of nothing that takes a grammar. -/
structure Parted (o : Outline) : Prop where
  signature : ∀ e ∈ o.signature, e.Closed '('
  middle : ∀ l ∈ o.middle, l.isMark '{' = false
  selection : o.selection.Closed '{'

/-- The lexemes of an operation, around what stands between the braces. -/
theorem lexemes_eq (o : Outline) :
    o.scan.lexemes = (o.lead ++ o.signatureRow ++ o.middle ++ [o.selection.opener]) ++
      (o.selection.inner ++ (o.selection.closer :: o.after)) := by
  simp [scan, Enclosed.row]

/-- An outline is cut off a text part by part. -/
theorem ofScan?_inversion {s : Scan} {o : Outline} (h : ofScan? s = some o) :
    ∃ behindLead behindSignature, cutLead s.lexemes = (o.lead, o.name, behindLead) ∧
      cutSignature behindLead = some (o.signature, behindSignature) ∧
      cutSelection behindSignature = some (o.middle, o.selection, o.after) ∧
      o.trailer = s.trailer := by
  unfold ofScan? at h
  simp only [bind, Option.bind_eq_some_iff, pure] at h
  obtain ⟨⟨signature, behind⟩, hsignature, ⟨middle, selection, after⟩, hselection, heq⟩ := h
  cases heq
  exact ⟨_, _, rfl, hsignature, hselection, rfl⟩

/-- The parts of an outline make up the text, and their brackets are mates. -/
theorem parted_of_ofScan? {s : Scan} {o : Outline} (h : ofScan? s = some o) :
    o.scan = s ∧ o.Parted := by
  obtain ⟨behindLead, behindSignature, hlead, hsignature, hselection, htrailer⟩ :=
    ofScan?_inversion h
  obtain ⟨hsignatureRow, hsignatureClosed⟩ := cutSignature_inversion hsignature
  obtain ⟨hselectionRow, hselectionClosed, hmiddle⟩ := cutSelection_inversion hselection
  refine ⟨?_, hsignatureClosed, hmiddle, hselectionClosed⟩
  have hrow := cutLead_append s.lexemes
  rw [hlead] at hrow
  unfold scan signatureRow
  simp only [List.append_assoc] at hselectionRow ⊢
  rw [hselectionRow, hsignatureRow, hrow, htrailer]

theorem names_lead {source : String} {o : Outline} (h : ofText? source = some o) :
    ∀ l ∈ o.lead, l.kind = .name := by
  obtain ⟨_, _, hlead, -⟩ := ofScan?_inversion h
  have hnames := names_cutLead (scanText source).lexemes
  rwa [hlead] at hnames

/-! ## §2 Parts are found again -/

/-- Helper: a balanced part between a bracket and its mate is found at the front of a row. -/
private theorem closeAt_enclosed {e : Enclosed} {opener : Char} (h : e.Closed opener)
    (after : List Lexeme) :
    closeAt 1 (e.inner ++ e.closer :: after) = some ⟨e.inner, e.closer, after⟩ :=
  closeAt_balanced h.inner h.closer after

theorem cutSignature_eq {signature : Option Enclosed} {rest : List Lexeme}
    (hsignature : ∀ e ∈ signature, e.Closed '(')
    (hnone : signature = none → rest.head?.any (Lexeme.isMark '(') = false) :
    cutSignature ((signature.map Enclosed.row).getD [] ++ rest) = some (signature, rest) := by
  -- Without a signature nothing may look like one; with one, its parenthesis is closed by its mate
  cases signature with
  | none =>
    cases rest with
    | nil => rfl
    | cons l more =>
      have hl : l.isMark '(' = false := hnone rfl
      simp [cutSignature, hl]
  | some e =>
    have hclosed := hsignature e rfl
    show cutSignature ((e.opener :: e.inner ++ [e.closer]) ++ rest) = _
    simp only [List.cons_append, List.append_assoc, List.nil_append, cutSignature, hclosed.opener,
      if_true, closeAt_enclosed hclosed, Option.map_some]

theorem cutSelection_eq {middle after : List Lexeme} {selection : Enclosed}
    (hmiddle : ∀ l ∈ middle, l.isMark '{' = false) (hselection : selection.Closed '{') :
    cutSelection (middle ++ selection.row ++ after) = some (middle, selection, after) := by
  have hpass : ∀ l ∈ middle, (!l.isMark '{') = true := fun l hl => by rw [hmiddle l hl]; rfl
  unfold cutSelection
  simp only [Enclosed.row, List.append_assoc, List.cons_append, List.nil_append]
  rw [List.takeWhile_append_of_pos hpass, List.dropWhile_append_of_pos hpass]
  simp [hselection.opener, closeAt_enclosed hselection]

/-- Parts are found again in the text that they make up, if its front is read as it was. The front
needs a word of its own, because a name behind the keyword would be taken for the name of the
operation. -/
theorem ofScan?_of_parted {o : Outline} (h : o.Parted)
    (hlead : cutLead (o.lead ++ (o.signatureRow ++ (o.middle ++ o.selection.row ++ o.after))) =
      (o.lead, o.name, o.signatureRow ++ (o.middle ++ o.selection.row ++ o.after)))
    (hnone : o.signature = none →
      (o.middle ++ o.selection.row ++ o.after).head?.any (Lexeme.isMark '(') = false) :
    ofScan? o.scan = some o := by
  -- The three cuts are made one behind the other, each at the front of what the last one left
  have hrow : o.scan.lexemes =
      o.lead ++ (o.signatureRow ++ (o.middle ++ o.selection.row ++ o.after)) := by
    simp [scan]
  unfold ofScan?
  rw [hrow, hlead]
  unfold signatureRow
  simp only [cutSignature_eq h.signature hnone, cutSelection_eq h.middle h.selection, bind,
    Option.bind_some, pure]
  rfl

end Outline

end QueryWeave
