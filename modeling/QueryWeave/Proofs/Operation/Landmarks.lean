import QueryWeave.Proofs.Operation.Grammar
import QueryWeave.Proofs.Operation.Outline

/-!
# Landmarks of Well-Formed Operations

The outline of a well-formed operation finds the keyword, the name and the signature that the
grammar has there. Behind the signature stands a directive or the selection set. Where exactly the
outline finds the selection set does not matter to what follows.

- `Outline.Lawful`: what an outline has found.
- `Derives.lawful`: the outline of a well-formed operation.
-/

namespace QueryWeave

/-- An outline whose front is what the grammar has there: names, then a signature with definitions
or the request for inferred ones, then a directive or the selection set. -/
structure Outline.Lawful (o : Outline) : Prop where
  lead : ∀ l ∈ o.lead, l.kind = .name
  signature : ∀ e ∈ o.signature, Derives .definitions e.inner ∨
    ∃ sign name, e.inner = [sign, name] ∧ sign.isMark '@' = true ∧ name.word = "autodeclare"
  behind : ∃ first rest, o.middle ++ o.selection.row ++ o.after = first :: rest ∧
    (first.isMark '@' = true ∨ first.isMark '{' = true)

/-- Directives and a selection set begin with an at sign or a brace. -/
theorem behind_signature {directives selections : List Lexeme}
    (hdirectives : Derives (.directives false) directives)
    (hselections : Derives .selectionSet selections) :
    ∃ first rest, directives ++ selections = first :: rest ∧
      (first.isMark '@' = true ∨ first.isMark '{' = true) := by
  cases hdirectives with
  | directivesNil =>
    cases hselections with
    | selectionSet hopener => exact ⟨_, _, rfl, .inr hopener⟩
  | directivesCons hsign => exact ⟨_, _, rfl, .inl hsign⟩

/-- Helper: the signature of the grammar is the signature that is cut. -/
private theorem cutSignature_of_derives {row rest : List Lexeme} (h : Derives .signature row)
    (hrest : rest.head?.any (Lexeme.isMark '(') = false) :
    ∃ signature, cutSignature (row ++ rest) = some (signature, rest) ∧
      ∀ e ∈ signature, Derives .definitions e.inner ∨
        ∃ sign name, e.inner = [sign, name] ∧ sign.isMark '@' = true ∧
          name.word = "autodeclare" := by
  have hcloses : ∀ {l : Lexeme}, l.isMark ')' = true → l.closes = true := fun hl => by
    simp [Lexeme.closes, hl]
  cases h with
  | noSignature =>
    exact ⟨none, @Outline.cutSignature_eq none rest (by simp) fun _ => hrest, by simp⟩
  | @signature opener closer definitions hopener hdefinitions _ hcloser =>
    refine ⟨some ⟨opener, definitions, closer⟩, ?_, ?_⟩
    · apply @Outline.cutSignature_eq (some ⟨opener, definitions, closer⟩) rest _ (by simp)
      rintro e ⟨⟩
      exact ⟨hopener, hdefinitions.orderly.balanced, hcloses hcloser⟩
    · rintro e ⟨⟩
      exact .inl hdefinitions
  | @autodeclare opener sign name closer hopener hsign hname hword hcloser =>
    refine ⟨some ⟨opener, [sign, name], closer⟩, ?_, ?_⟩
    · apply @Outline.cutSignature_eq (some ⟨opener, [sign, name], closer⟩) rest _ (by simp)
      rintro e ⟨⟩
      refine ⟨hopener, ?_, hcloses hcloser⟩
      -- An at sign and a name, between which no bracket stands
      have hplain := (Lexeme.plain_of_isName hname).orderly.balanced
      apply hplain.cons
      · simp [Lexeme.opens, Lexeme.isMark, Lexeme.isMark_iff.1 hsign]
      · simp [Lexeme.closes, Lexeme.isMark, Lexeme.isMark_iff.1 hsign]
    · rintro e ⟨⟩
      exact .inr ⟨sign, name, rfl, hsign, hword⟩

/-- Helper: what is cut from the front of an operation settles the rest of its outline. -/
private theorem lawful_of_cuts {s : Scan} {o : Outline} (ho : Outline.ofScan? s = some o)
    {lead signature rest : List Lexeme} {name : Option String}
    (hlead : cutLead s.lexemes = (lead, name, signature ++ rest))
    (hnames : ∀ l ∈ lead, l.kind = .name) (hsignature : Derives .signature signature)
    (hrest : ∃ first more, rest = first :: more ∧
      (first.isMark '@' = true ∨ first.isMark '{' = true)) : o.Lawful := by
  have hnone : rest.head?.any (Lexeme.isMark '(') = false := by
    obtain ⟨first, more, rfl, hfirst | hfirst⟩ := hrest <;>
      simp [Lexeme.isMark, Lexeme.isMark_iff.1 hfirst]
  -- The outline cuts the lead, then the signature, then the selection
  obtain ⟨found, hcut, hlawful⟩ := cutSignature_of_derives hsignature hnone
  obtain ⟨behindLead, behindSignature, hcutLead, hcutSignature, hselection, -⟩ :=
    Outline.ofScan?_inversion ho
  rw [hlead] at hcutLead
  obtain ⟨rfl, hbehind⟩ := Prod.mk.inj hcutLead
  rw [← (Prod.mk.inj hbehind).2, hcut] at hcutSignature
  obtain ⟨rfl, rfl⟩ := Prod.mk.inj (Option.some.inj hcutSignature)
  obtain ⟨hrow, -, -⟩ := cutSelection_inversion hselection
  exact ⟨hnames, hlawful, by rw [hrow]; exact hrest⟩

/-- The outline of a well-formed operation. Which rule an operation comes from, shorthand or
keyword, with a name or without, is told apart here once. -/
theorem Derives.lawful {s : Scan} (h : Derives .operation s.lexemes) {o : Outline}
    (ho : Outline.ofScan? s = some o) : o.Lawful := by
  generalize hrow : s.lexemes = row at h
  cases h with
  | shorthand hselections =>
    obtain ⟨first, rest, hfirst, hmark⟩ := behind_signature .directivesNil hselections
    rw [List.nil_append] at hfirst
    -- A brace is no keyword
    have hnot : first.isKeyword = false := by
      rcases hmark with hmark | hmark <;>
        simp [Lexeme.isKeyword, Lexeme.isName, Lexeme.isMark_iff.1 hmark]
    have hlead : cutLead s.lexemes = ([], none, [] ++ row) := by
      rw [hrow, hfirst]
      simp [cutLead, hnot]
    exact lawful_of_cuts ho hlead (by simp) .noSignature ⟨first, rest, hfirst, hmark⟩
  | @anonymous keyword signature directives selections hkeyword hsignature hdirectives
      hselections =>
    have hrest := behind_signature hdirectives hselections
    -- What follows the keyword is no name
    have hnot : ∃ next more, signature ++ (directives ++ selections) = next :: more ∧
        next.isName = false := by
      have hname : ∀ {l : Lexeme} {mark : Char}, l.isMark mark = true → l.isName = false :=
        fun hl => by simp [Lexeme.isName, Lexeme.isMark_iff.1 hl]
      cases hsignature with
      | noSignature =>
        obtain ⟨first, more, heq, hmark | hmark⟩ := hrest
        · exact ⟨first, more, heq, hname hmark⟩
        · exact ⟨first, more, heq, hname hmark⟩
      | signature hopener => exact ⟨_, _, rfl, hname hopener⟩
      | autodeclare hopener => exact ⟨_, _, rfl, hname hopener⟩
    obtain ⟨next, more, heq, hnext⟩ := hnot
    have hlead : cutLead s.lexemes =
        ([keyword], none, signature ++ (directives ++ selections)) := by
      rw [hrow, heq]
      simp [cutLead, hkeyword, hnext]
    exact lawful_of_cuts ho hlead (by simpa using Lexeme.isName_of_isKeyword hkeyword) hsignature
      hrest
  | @named keyword name signature directives selections hkeyword hname hsignature hdirectives
      hselections =>
    -- Keyword and name are both taken
    have hisName := Lexeme.isName_iff.2 hname
    have hlead : cutLead s.lexemes =
        ([keyword, name], some name.word, signature ++ (directives ++ selections)) := by
      rw [hrow]
      simp [cutLead, hkeyword, hisName]
    exact lawful_of_cuts ho hlead (by simpa using ⟨Lexeme.isName_of_isKeyword hkeyword, hname⟩)
      hsignature (behind_signature hdirectives hselections)

/-- A signature that is written out by hand consists of definitions. -/
theorem Outline.Lawful.definitions {o : Outline} (h : o.Lawful) {e : Enclosed}
    (he : o.signature = some e) (hkind : o.signatureKind ≠ .autodeclare) :
    Derives .definitions e.inner := by
  rcases h.signature e he with hderives | ⟨sign, name, hinner, hsign, hword⟩
  · exact hderives
  · -- The request for inferred definitions would have been told apart
    apply absurd _ hkind
    simp [signatureKind, he, hinner, hsign, hword]

end QueryWeave
