import QueryWeave.Proofs.Lexeme.Joined
import QueryWeave.Proofs.Operation.Declared
import QueryWeave.Proofs.Operation.Parts

/-!
# Variables of Texts

Which variables stand in a text, and what becomes of them when the text is changed. Words in front
of a text may run into it, but they neither hide a variable nor make one. Every variable of a
signature begins a declaration. So an operation whose signature is filled in has the variables that
are declared for it, and those that stood outside of its signature.

- `textVariables`: the variables of a text.
- `variablesIn_scan_word`: words in front of a text.
- `Declaration.names_readList`: the variables of a signature.
- `Outline.variablesIn_replaceSignature`, `Outline.variablesIn_insertSignature`: operations with
  their signatures filled in.
-/

namespace QueryWeave

open OperationParts (variablesIn)

/-! ## §1 Rows and texts -/

/-- The names of the variables in a text, in the order in which they stand there. -/
def textVariables (text : String) : List String :=
  variablesIn (scanText text).lexemes

@[simp] theorem variablesIn_append (first second : List Lexeme) :
    variablesIn (first ++ second) = variablesIn first ++ variablesIn second := by
  simp [variablesIn]

theorem variablesIn_cons_of_not {l : Lexeme} (h : l.isVariable = false) (rest : List Lexeme) :
    variablesIn (l :: rest) = variablesIn rest := by
  simp [variablesIn, h]

theorem variablesIn_eq_nil {row : List Lexeme} (h : ∀ l ∈ row, l.isVariable = false) :
    variablesIn row = [] := by
  have hnone : row.filter Lexeme.isVariable = [] :=
    List.filter_eq_nil_iff.2 fun l hl => by simp [h l hl]
  rw [variablesIn, hnone, List.map_nil]

/-- The variables among tokens. -/
theorem variablesIn_eq_tokens (row : List Lexeme) :
    variablesIn row = ((row.map Lexeme.token).filter fun token => token.1 = .variable).map
      fun token => String.ofList (token.2.drop 1) := by
  rw [variablesIn, List.filter_map, List.map_map]
  rfl

/-- Gaps do not matter. -/
theorem variablesIn_congr {row other : List Lexeme}
    (h : row.map Lexeme.token = other.map Lexeme.token) : variablesIn row = variablesIn other := by
  rw [variablesIn_eq_tokens, h, ← variablesIn_eq_tokens]

@[simp] theorem variablesIn_indent (gap : List Char) (s : Scan) :
    variablesIn (s.indent gap).lexemes = variablesIn s.lexemes :=
  variablesIn_congr (tokens_indent gap s)

/-- The variables of joined texts are those of each, if no text but the last is left open. -/
theorem textVariables_joined {texts : List String} (h : ∀ text ∈ texts.dropLast, ¬LeftOpen text) :
    textVariables ("\n".intercalate texts) = texts.flatMap textVariables := by
  have htokens := (tokens_joined_iff texts).2 h
  have htexts : textVariables = fun text => ((tokensOf text).filter fun token =>
      token.1 = .variable).map fun token => String.ofList (token.2.drop 1) :=
    funext fun text => variablesIn_eq_tokens _
  rw [htexts]
  dsimp only
  rw [htokens, List.filter_flatMap, List.map_flatMap]

/-! ## §2 Words in front of a text -/

/-- Helper: a lexeme that begins inside a word is no variable, and takes in characters of words
only. -/
private theorem classify_part {c : Char} (hc : isNamePart c = true ∨ isNumberPart c = true)
    (rest : List Char) :
    (classify c rest).1 ≠ .variable ∧
      ∀ d ∈ rest.take (classify c rest).2, isNamePart d = true ∨ isNumberPart d = true := by
  obtain ⟨-, hdollar, hquote⟩ := beginsLexeme_of_part hc
  have hrun : ∀ p : Char → Bool, ∀ d ∈ rest.take (runLength p rest), p d = true := by
    intro p d hd
    have htake : rest.take (runLength p rest) = rest.takeWhile p :=
      (List.prefix_iff_eq_take.1 (List.takeWhile_prefix p)).symm
    rw [htake] at hd
    exact List.mem_takeWhile_imp hd
  -- A word begins with no dollar sign and no quote, so what is cut off is dots, a name or a number
  unfold classify
  split_ifs with hdots hvariable hstring hname
  · refine ⟨by simp, fun d hd => .inr ?_⟩
    simp only [Bool.and_eq_true, decide_eq_true_eq] at hdots
    rw [hdots.2] at hd
    obtain rfl : d = '.' := by simpa using hd
    rfl
  · simp [hdollar] at hvariable
  · exact ⟨by simp, fun d hd => .inl (hrun isNamePart d hd)⟩
  · exact ⟨by simp, fun d hd => .inr (hrun isNumberPart d hd)⟩
  · exact ⟨by simp, by simp⟩

/-- A lexeme that begins with a character of a word is cut off, and the rest is read by itself. The
lexeme is no variable, since only the dollar sign begins one. -/
theorem variablesIn_scan_cons {c : Char} (hc : isNamePart c = true ∨ isNumberPart c = true)
    (rest : List Char) :
    variablesIn (scan (c :: rest)).lexemes =
      variablesIn (scan (rest.drop (classify c rest).2)).lexemes := by
  generalize hclass : classify c rest = class'
  obtain ⟨kind, more⟩ := class'
  have hkind : kind ≠ .variable := by simpa [hclass] using (classify_part hc rest).1
  have hlength : (rest.take more).length = more := by
    have hle := classify_le_length c rest
    rw [hclass] at hle
    exact List.length_take_of_le hle
  -- The lexeme is spelled where it stands, and what follows is scanned as it is
  have hspells : Lexeme.Spells [⟨[], kind, c :: rest.take more⟩] (rest.drop more) := by
    refine ⟨isGap_nil, ⟨c, _, rfl, (beginsLexeme_of_part hc).1, ?_⟩, trivial⟩
    simp [hlength, hclass]
  have hchars : Lexeme.charsOf [⟨[], kind, c :: rest.take more⟩] ++ rest.drop more = c :: rest := by
    simp
  have hscan := scan_of_spells hspells
  rw [hchars] at hscan
  rw [hscan, List.singleton_append]
  exact variablesIn_cons_of_not (by simpa [Lexeme.isVariable] using hkind) _

/-- Words in front of a text may run into it, but they neither hide a variable nor make one. This
matters where a request is taken out and the keyword comes to touch what stood behind it. -/
theorem variablesIn_scan_word {word : List Char}
    (hword : ∀ c ∈ word, isNamePart c = true ∨ isNumberPart c = true) (text : List Char) :
    variablesIn (scan (word ++ text)).lexemes = variablesIn (scan text).lexemes := by
  -- On the length of the whole text: a lexeme may end inside the word, or behind it
  induction hlength : (word ++ text).length using Nat.strong_induction_on
    generalizing word text with
  | _ n ih =>
    subst hlength
    cases word with
    | nil => rfl
    | cons c rest =>
      obtain ⟨hc, hrest⟩ := List.forall_mem_cons.1 hword
      have htaken := (classify_part hc (rest ++ text)).2
      rw [List.cons_append, variablesIn_scan_cons hc]
      generalize (classify c (rest ++ text)).2 = more at htaken
      rcases Nat.le_total more rest.length with hle | hle
      · -- What is left of the word is a word
        rw [List.drop_append_of_le_length hle]
        refine ih _ ?_ (fun d hd => hrest d (List.mem_of_mem_drop hd)) text rfl
        simp only [List.length_cons, List.length_append, List.length_drop]
        omega
      · -- The lexeme ends inside the text: what it has taken of the text is a word as well
        rw [List.drop_append, List.drop_eq_nil_of_le hle, List.nil_append]
        rw [List.take_append, List.take_of_length_le hle] at htaken
        have hsplit := ih _ ?_ (fun d hd => htaken d (List.mem_append_right _ hd))
          (text.drop (more - rest.length)) rfl
        · rw [← hsplit, List.take_append_drop]
        · simp only [List.take_append_drop, List.length_cons, List.length_append]
          omega

/-- Names in front of a text do not matter to its variables, even if the last one runs into it. -/
theorem variablesIn_scan_names {row : List Lexeme}
    (h : ∀ l ∈ row, IsGap l.gap ∧ l.Whole ∧ l.kind = .name) (text : List Char) :
    variablesIn (scan (Lexeme.charsOf row ++ text)).lexemes =
      variablesIn (scan text).lexemes := by
  induction row with
  | nil => rfl
  | cons l rest ih =>
    obtain ⟨⟨hgap, hwhole, hkind⟩, hrest⟩ := List.forall_mem_cons.1 h
    have hword : ∀ c ∈ l.text, isNamePart c = true ∨ isNumberPart c = true :=
      fun c hc => .inl (List.all_eq_true.1 (hwhole.all_isNamePart hkind) c hc)
    rw [Lexeme.charsOf_cons, List.append_assoc, List.append_assoc, scan_gap_append hgap,
      variablesIn_indent, variablesIn_scan_word hword, ih hrest]

/-! ## §3 Signatures -/

namespace Declaration

theorem variablesIn_skipColon (row : List Lexeme) :
    variablesIn (skipColon row) = variablesIn row := by
  cases row with
  | nil => rfl
  | cons l rest =>
    rw [skipColon]
    split
    · rename_i hcolon
      have hnot : l.isVariable = false := by simp [Lexeme.isVariable, Lexeme.isMark_iff.1 hcolon]
      rw [variablesIn_cons_of_not hnot]
    · rfl

/-- A type ends in front of the next variable. -/
theorem variablesIn_drop_typeLength (depth : Nat) (row : List Lexeme) :
    variablesIn (row.drop (typeLength depth row)) = variablesIn row := by
  induction row generalizing depth with
  | nil => rfl
  | cons l rest ih =>
    rw [typeLength]
    split_ifs with hvariable
    · rfl
    · rfl
    all_goals
      rw [List.drop_succ_cons, ih, variablesIn_cons_of_not (Bool.eq_false_iff.2 hvariable)]

/-- So does a default. -/
theorem variablesIn_drop_defaultLength (row : List Lexeme) :
    variablesIn (row.drop (defaultLength row)) = variablesIn row := by
  unfold defaultLength
  generalize hpass : (fun l : Lexeme => !l.isVariable && !l.isMark '@') = pass
  have hsplit : row.takeWhile pass ++ row.dropWhile pass = row := List.takeWhile_append_dropWhile
  -- What is passed over are the lexemes in front of the next variable
  have hnone : variablesIn (row.takeWhile pass) = [] := by
    apply variablesIn_eq_nil
    intro l hl
    have hl := List.mem_takeWhile_imp hl
    simp only [← hpass, Bool.and_eq_true, Bool.not_eq_true'] at hl
    exact hl.1
  have hdrop : row.drop (row.takeWhile pass).length = row.dropWhile pass := by
    conv_lhs =>
      arg 2
      rw [← hsplit]
    exact List.drop_left
  rw [hdrop]
  conv_rhs => rw [← hsplit, variablesIn_append, hnone, List.nil_append]

/-- **Every variable of a signature begins a declaration.** Types have no variables, and a default
that has one is cut there; so none is passed over. -/
theorem names_readList (row : List Lexeme) : (readList row).map name = variablesIn row := by
  -- A variable, and those behind its type
  have hentry : ∀ {l : Lexeme} {rest : List Lexeme}, l.isVariable = true →
      variablesIn (l :: rest) = l.variableName ::
        variablesIn ((skipColon rest).drop (typeLength 0 (skipColon rest))) := by
    intro l rest hvariable
    rw [variablesIn_drop_typeLength, variablesIn_skipColon]
    simp [variablesIn, hvariable]
  fun_induction readList row with
  | case1 => rfl
  | case2 l rest hvariable row typeRow hdrop =>
    rw [hentry hvariable, hdrop]
    rfl
  | case3 l rest hvariable row typeRow next more hdrop hsign defaultRow ih =>
    have hnext : next.isVariable = false := by
      simp [Lexeme.isVariable, Lexeme.isMark_iff.1 hsign]
    rw [hentry hvariable, hdrop, variablesIn_cons_of_not hnext, List.map_cons, ih,
      variablesIn_drop_defaultLength]
  | case4 l rest hvariable row typeRow next more hdrop hsign ih =>
    rw [hentry hvariable, hdrop, List.map_cons, ih]
  | case5 l rest hvariable ih =>
    rw [ih, variablesIn_cons_of_not (Bool.eq_false_iff.2 hvariable)]

end Declaration

/-- Printed declarations have the variables that they declare. -/
theorem Printed.variablesIn_eq {ds : List Declaration} {gap : List Char} {row : List Lexeme}
    (h : Printed ds gap row) : variablesIn row = ds.map Declaration.name := by
  have hreads := h.reads [] rfl
  rw [List.append_nil, Declaration.readList, List.append_nil] at hreads
  rw [← Declaration.names_readList, hreads]

theorem variablesIn_signatureOf (gap : List Char) (row : List Lexeme) :
    variablesIn (signatureOf gap row) = variablesIn row := by
  have hcloser : variablesIn [⟨[], .punctuator ')', [')']⟩] = [] := rfl
  rw [signatureOf, List.cons_append, variablesIn_cons_of_not rfl, variablesIn_append, hcloser,
    List.append_nil]

theorem variablesIn_regap (gap : List Char) (row : List Lexeme) :
    variablesIn (Lexeme.regap gap row) = variablesIn row := by
  apply variablesIn_congr
  cases row <;> rfl

/-! ## §4 Operations with their signatures filled in -/

namespace Outline

variable {source : String} {o : Outline}

theorem variablesIn_lead (ho : ofText? source = some o) : variablesIn o.lead = [] :=
  variablesIn_eq_nil fun l hl => by simp [Lexeme.isVariable, names_lead ho l hl]

/-- Where a request is replaced, the operation has the variables that are declared, and those behind
the signature. -/
theorem variablesIn_replaceSignature (ho : ofText? source = some o) {old : Enclosed}
    (hold : o.signature = some old) {ds : List Declaration} (hds : ∀ d ∈ ds, d.Printable) :
    variablesIn (QueryWeave.scan (o.replaceSignature old ds)).lexemes =
      ds.map Declaration.name ++ variablesIn (o.middle ++ o.selection.row ++ o.after) := by
  by_cases hnil : ds = []
  · -- The keyword and the name may run into what stood behind the request
    obtain ⟨⟨hspells, -⟩, -⟩ := spells_parts ho
    obtain ⟨hlead, -⟩ := Lexeme.spells_append.1 hspells
    have hnames : ∀ l ∈ o.lead, IsGap l.gap ∧ l.Whole ∧ l.kind = .name := fun l hl => by
      have hkind := names_lead ho l hl
      exact ⟨hlead.isGap l hl, hlead.whole_of_kind l hl (by simp [hkind]), hkind⟩
    have htext : o.replaceSignature old [] =
        Lexeme.charsOf o.lead ++ (dropLastBlank old.opener.gap ++ o.behindSignature) := by
      simp [replaceSignature, signatureChars]
    rw [hnil, htext, variablesIn_scan_names hnames,
      scan_gap_append (isGap_dropLastBlank (isGap_signature ho hold)), variablesIn_indent,
      scan_behindSignature ho]
    rfl
  · obtain ⟨row, hprinted⟩ := exists_printed hnil hds isGap_nil
    rw [scan_replaceSignature ho hold hnil hprinted]
    simp only [variablesIn_append, variablesIn_lead ho, variablesIn_signatureOf,
      hprinted.variablesIn_eq, List.nil_append]

/-- Where declarations are put in front of the selection set, the operation has their variables
there, and those that it had. -/
theorem variablesIn_insertSignature (ho : ofText? source = some o) (hnone : o.signature = none)
    {ds : List Declaration} (hds : ∀ d ∈ ds, d.Printable) :
    variablesIn (QueryWeave.scan (o.insertSignature ds)).lexemes =
      variablesIn o.middle ++ (ds.map Declaration.name ++
        variablesIn (o.selection.row ++ o.after)) := by
  -- No declarations, no signature: then the source is left as it is
  by_cases hnil : ds = []
  · have hrow := (spells_parts ho).2
    rw [hnil, insertSignature_nil ho, ← scanText, hrow]
    simp [variablesIn_lead ho, signatureRow, hnone]
  · obtain ⟨row, hprinted⟩ := exists_printed hnil hds isGap_nil
    rw [scan_insertSignature ho hnone hnil hprinted]
    simp only [variablesIn_append, variablesIn_lead ho, variablesIn_signatureOf, variablesIn_regap,
      hprinted.variablesIn_eq, List.nil_append]

end Outline

end QueryWeave
