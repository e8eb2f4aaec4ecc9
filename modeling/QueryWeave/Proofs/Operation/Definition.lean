import QueryWeave.Batch.Entry
import QueryWeave.Proofs.Batch.Copies
import QueryWeave.Proofs.Bytes.Declaration
import QueryWeave.Proofs.Lexeme.Sealed
import QueryWeave.Proofs.Operation.Mentioned

/-!
# Variable Definitions

What a signature is to be read as: one declaration for each definition, with the source of its type
and of its default value, and without its directives. The grammar has a dollar sign and a name in
every definition, and ignored characters between them as between any other two tokens. A definition
is read if its variable is written in one piece; a dollar sign that stands apart from its name
begins no declaration.

- `VariableDefinition`: a definition in the parts that the grammar gives it.
- `VariableDefinition.readList_rows`: how definitions are read.
- `signatureLaws`: definitions that stand in a source, read, printed and read again.
-/

namespace QueryWeave

open OperationParts (variablesIn)

/-! ## §1 Definitions in parts -/

/-- How the variable of a definition is written. -/
inductive VariableSpelling where
  /-- In one piece. -/
  | joined (l : Lexeme) (hkind : l.kind = .variable)
  /-- With ignored characters between the dollar sign and the name. -/
  | apart (dollar name : Lexeme) (hdollar : dollar.isMark '$' = true) (hname : name.kind = .name)

namespace VariableSpelling

def row : VariableSpelling → List Lexeme
  | joined l _ => [l]
  | apart dollar name _ _ => [dollar, name]

def name : VariableSpelling → String
  | joined l _ => l.variableName
  | apart _ name _ _ => name.word

/-- Whether a variable is written in one piece. -/
def Joined : VariableSpelling → Prop
  | joined _ _ => True
  | apart _ _ _ _ => False

/-- What is written in one piece is one lexeme, which has the name. -/
theorem Joined.exists_lexeme {v : VariableSpelling} (h : v.Joined) :
    ∃ l : Lexeme, l.kind = .variable ∧ v.row = [l] ∧ v.name = l.variableName := by
  cases v with
  | joined l hkind => exact ⟨l, hkind, rfl, rfl⟩
  | apart dollar name hdollar hname => exact h.elim

end VariableSpelling

/-- A definition, in the parts that the grammar gives it. The parts carry their derivations, so
whatever is said of all definitions is said of every layout of them. -/
structure VariableDefinition where
  defined : VariableSpelling
  colon : Lexeme
  type : List Lexeme
  /-- The equals sign and the value, if there is one. -/
  default : List Lexeme
  directives : List Lexeme
  isColon : colon.isMark ':' = true
  isType : Derives .typeReference type
  isDefault : Derives .default default
  areDirectives : Derives (.directives true) directives

namespace VariableDefinition

/-- The lexemes in front of the type. -/
def front (d : VariableDefinition) : List Lexeme :=
  d.defined.row ++ [d.colon]

def row (d : VariableDefinition) : List Lexeme :=
  d.front ++ (d.type ++ (d.default ++ d.directives))

/-- The lexemes of definitions in a row. -/
def rows (ds : List VariableDefinition) : List Lexeme :=
  ds.flatMap row

def declaration (d : VariableDefinition) : Declaration :=
  ⟨d.defined.name, Declaration.partText d.type,
    if d.default = [] then none else some (Declaration.partText d.default.tail)⟩

/-- Whether the variable of a definition is written in one piece. -/
def Joined (d : VariableDefinition) : Prop :=
  d.defined.Joined

theorem rows_cons (d : VariableDefinition) (ds : List VariableDefinition) :
    rows (d :: ds) = d.row ++ rows ds :=
  List.flatMap_cons

theorem rows_append (first second : List VariableDefinition) :
    rows (first ++ second) = rows first ++ rows second :=
  List.flatMap_append

/-- Definitions that are written in one piece are what the grammar has for a signature. -/
theorem derives_rows {ds : List VariableDefinition} (h : ∀ d ∈ ds, d.Joined) :
    Derives .definitions (rows ds) := by
  induction ds with
  | nil => exact .definitionsNil
  | cons d rest ih =>
    obtain ⟨hd, hrest⟩ := List.forall_mem_cons.1 h
    obtain ⟨l, hkind, hrow, -⟩ := hd.exists_lexeme
    have hrows :=
      Derives.definitionsCons hkind d.isColon d.isType d.isDefault d.areDirectives (ih hrest)
    rw [rows_cons, row, front, hrow]
    simpa using hrows

/-! ## §2 Reading definitions -/

theorem readList_of_joined {ds : List VariableDefinition} (h : ∀ d ∈ ds, d.Joined) :
    Declaration.readList (rows ds) = ds.map declaration := by
  induction ds with
  | nil => simp [rows, Declaration.readList]
  | cons d rest ih =>
    obtain ⟨hd, hrest⟩ := List.forall_mem_cons.1 h
    obtain ⟨l, hkind, hrow, hname⟩ := hd.exists_lexeme
    have hend := Declaration.atEnd_directives d.areDirectives
      (Declaration.atEnd_definitions (derives_rows hrest))
    have hread := Declaration.readList_definition (Lexeme.isVariable_iff.2 hkind) d.isColon d.isType
      d.isDefault hend
    -- The directives hold no variable, and are passed over
    rw [Declaration.readList_append d.areDirectives.directives_isVariable, ih hrest] at hread
    rw [rows_cons, List.map_cons, row, front, hrow, declaration, hname]
    simpa using hread

/-- The only variable of a definition is the one that it defines. Defaults and directives of
definitions are constant, so none stands behind the type. -/
theorem variablesIn_row (d : VariableDefinition) :
    variablesIn d.row = variablesIn d.defined.row := by
  have hcolon : variablesIn [d.colon] = [] :=
    variablesIn_eq_nil (by simp [Lexeme.isVariable, Lexeme.isMark_iff.1 d.isColon])
  have htype : variablesIn d.type = [] :=
    variablesIn_eq_nil fun l hl => by
      simp [Lexeme.isVariable, (d.isType.type_kind l hl).1]
  have hdefault : variablesIn d.default = [] := by
    obtain ⟨defined, colon, type, default, directives, -, -, hdefault, -⟩ := d
    cases hdefault with
    | noDefault => rfl
    | default hsign hvalue =>
      apply variablesIn_eq_nil
      refine List.forall_mem_cons.2 ⟨by simp [Lexeme.isVariable, Lexeme.isMark_iff.1 hsign], ?_⟩
      exact fun l hl => (hvalue.value_isVariable l hl).1
  have hdirectives : variablesIn d.directives = [] :=
    variablesIn_eq_nil d.areDirectives.directives_isVariable
  -- What is left are the lexemes of the variable itself
  rw [row, front, variablesIn_append, variablesIn_append, variablesIn_append, variablesIn_append,
    hcolon, htype, hdefault, hdirectives]
  simp

/-- A definition has a variable only if it is written in one piece, and then no other. -/
theorem length_variablesIn_row (d : VariableDefinition) :
    (variablesIn d.row).length ≤ 1 ∧ ((variablesIn d.row).length = 1 → d.Joined) := by
  rw [variablesIn_row]
  obtain ⟨defined, -, -, -, -, -, -, -, -⟩ := d
  cases defined with
  | joined l hkind =>
    exact ⟨by simp [VariableSpelling.row, variablesIn, Lexeme.isVariable, hkind], fun _ => trivial⟩
  | apart dollar name hdollar hname =>
    simp [VariableSpelling.row, variablesIn, Lexeme.isVariable, Lexeme.isMark_iff.1 hdollar, hname]

theorem length_variablesIn_rows_le (ds : List VariableDefinition) :
    (variablesIn (rows ds)).length ≤ ds.length := by
  induction ds with
  | nil => exact Nat.le_refl _
  | cons d rest ih =>
    have hd := (length_variablesIn_row d).1
    rw [rows_cons, variablesIn_append, List.length_append, List.length_cons]
    omega

/-- Definitions with as many variables as there are definitions are each written in one piece. -/
theorem joined_of_length {ds : List VariableDefinition}
    (h : (variablesIn (rows ds)).length = ds.length) : ∀ d ∈ ds, d.Joined := by
  induction ds with
  | nil => simp
  | cons d rest ih =>
    rw [rows_cons, variablesIn_append, List.length_append, List.length_cons] at h
    obtain ⟨hle, hjoined⟩ := length_variablesIn_row d
    have hrest := length_variablesIn_rows_le rest
    -- Neither the first definition nor the others make up for a variable that is missing
    exact List.forall_mem_cons.2 ⟨hjoined (by omega), ih (by omega)⟩

/-- **Definitions are read as what they declare exactly if each variable is written in one
piece.** -/
theorem readList_rows {ds : List VariableDefinition} :
    Declaration.readList (rows ds) = ds.map declaration ↔ ∀ d ∈ ds, d.Joined := by
  refine ⟨fun hread => joined_of_length ?_, readList_of_joined⟩
  rw [← Declaration.names_readList, hread, List.length_map, List.length_map]

end VariableDefinition

/-! ## §3 Printing and reading again

What was read is printed and read again, under its own names or those of an entry. Types and
defaults are printed as they stood, so only the names can go wrong. -/

/-- Whether declarations are read back from what is printed of them. -/
def RoundTrips (ds : List Declaration) : Prop :=
  Declaration.readList (scanText (Declaration.listText ds)).lexemes = ds

theorem roundTrips_of_printable {ds : List Declaration} (h : ∀ d ∈ ds, d.Printable) :
    RoundTrips ds := by
  by_cases hnil : ds = []
  · subst hnil
    simp [RoundTrips, Declaration.listText, scanText, scan_nil, Declaration.readList]
  · obtain ⟨row, hprinted⟩ := exists_printed hnil h isGap_nil
    have hchars := hprinted.chars
    have hspells := hprinted.readBack [] rfl
    -- What was printed is scanned as the row it was printed from, with nothing behind it
    have hscan := @scan_charsOf row [] hspells rfl
    have hreads := hprinted.reads [] rfl
    rw [List.append_nil, hchars, List.nil_append] at hscan
    rw [List.append_nil, Declaration.readList, List.append_nil] at hreads
    rw [RoundTrips, scanText, hscan]
    exact hreads

/-- What is read is named by names. -/
theorem isName_of_mem_readList {text : String} {d : Declaration}
    (h : d ∈ Declaration.readList (scanText text).lexemes) : IsName d.name.toList := by
  have hname : d.name ∈ variablesIn (scanText text).lexemes := by
    rw [← Declaration.names_readList]
    exact List.mem_map_of_mem h
  obtain ⟨l, hl, heq⟩ := List.mem_map.1 hname
  obtain ⟨hrow, hvariable⟩ := List.mem_filter.1 hl
  have hkind := Lexeme.isVariable_iff.1 hvariable
  have hwhole := (spells_scan text.toList).1.whole_of_kind l hrow (by simp [hkind])
  obtain ⟨name, htext, hisName⟩ := hwhole.isName_drop hkind
  rw [← heq]
  simpa [Lexeme.variableName, htext] using hisName

/-- Whether a text makes names when it is put in front of names. -/
def BeginsName (aliasName : String) : Prop :=
  IsName (aliasName ++ "__").toList

theorem isName_entryVariable_iff {aliasName name : String}
    (hname : name.toList.all isNamePart = true) :
    IsName (entryVariable aliasName name).toList ↔ BeginsName aliasName := by
  have hchars : (entryVariable aliasName name).toList =
      (aliasName ++ "__").toList ++ name.toList := by
    simp [entryVariable]
  rw [BeginsName, hchars]
  refine ⟨?_, fun h => h.append hname⟩
  rintro ⟨c, more, heq, hstart, hmore⟩
  -- The name is longer than what is put in front, which is not empty
  obtain ⟨d, rest, hrest⟩ : ∃ d rest, (aliasName ++ "__").toList = d :: rest :=
    List.exists_cons_of_ne_nil (by simp)
  rw [hrest, List.cons_append] at heq
  obtain ⟨rfl, rfl⟩ := List.cons.inj heq
  rw [List.all_append, Bool.and_eq_true] at hmore
  exact ⟨d, rest, hrest, hstart, hmore.1⟩

/-- Declarations are read back under the names of an entry exactly if these are names. An alias that
begins with a digit, say, would leave a dollar sign and a number. -/
theorem roundTrips_toEntry_iff {ds : List Declaration} (h : ∀ d ∈ ds, d.Printable)
    (aliasName : String) :
    RoundTrips (ds.map (Declaration.toEntry aliasName)) ↔ ds = [] ∨ BeginsName aliasName := by
  constructor
  · intro hround
    rcases ds with _ | ⟨d, rest⟩
    · exact .inl rfl
    · -- Were the renamed declaration read back, its name would be that of a variable token
      have hmem : d.toEntry aliasName ∈ Declaration.readList
          (scanText
            (Declaration.listText ((d :: rest).map (Declaration.toEntry aliasName)))).lexemes := by
        rw [hround]
        exact List.mem_map_of_mem List.mem_cons_self
      have hparts := (h d List.mem_cons_self).name.all
      exact .inr ((isName_entryVariable_iff hparts).1 (isName_of_mem_readList hmem))
  · rintro (rfl | hbegins)
    · exact roundTrips_of_printable (by simp)
    · apply roundTrips_of_printable
      intro renamed hrenamed
      obtain ⟨d, hd, rfl⟩ := List.mem_map.1 hrenamed
      have hprintable := h d hd
      exact ⟨(isName_entryVariable_iff hprintable.name.all).2 hbegins, hprintable.type,
        hprintable.default⟩

theorem beginsName_aliasOfCode (code : Nat) : BeginsName (aliasOfCode code) := by
  rw [BeginsName, String.toList_append]
  apply (isName_aliasOfCode code).append
  rfl

/-! ## §4 Definitions in a source -/

/-- Whether `text` is the source from the first token to the last of a part behind a front. -/
def IsSliceOf (source : String) (front part : List Lexeme) (text : String) : Prop :=
  Bytes.partText? source.toList (Bytes.tokensOf (byteLength (Lexeme.charsOf front)) part) =
    some text.toList

theorem isSliceOf_partText {source : String} {front part rest : List Lexeme}
    (h : (scanText source).lexemes = front ++ (part ++ rest)) :
    IsSliceOf source front part (Declaration.partText part) := by
  have hread := Bytes.readAt_scan source.toList
  rw [← scanText, h] at hread
  have hpart := hread.append.2.append.1
  rw [Nat.zero_add] at hpart
  rw [IsSliceOf, Declaration.partText, String.toList_ofList]
  exact Bytes.partText?_eq hpart

namespace VariableDefinition

/-- What the parts of a definition are called and printed as, where it stands in a source. -/
structure Located (source : String) (front : List Lexeme) (d : VariableDefinition) : Prop where
  /-- The name is what the token of the variable has behind its dollar sign. -/
  name : ∀ l hkind, d.defined = .joined l hkind →
    IsSliceOf source front [l] ("$" ++ d.declaration.name)
  /-- The text of the type is the source of the type. -/
  type : IsSliceOf source (front ++ d.front) d.type d.declaration.typeText
  /-- The text of the default value is the source of what stands behind the equals sign. -/
  default : ∀ sign value, d.default = sign :: value →
    ∃ text, d.declaration.defaultText = some text ∧
      IsSliceOf source (front ++ (d.front ++ (d.type ++ [sign]))) value text
  /-- Without an equals sign there is none. -/
  noDefault : d.default = [] → d.declaration.defaultText = none

theorem located {source : String} {front rest : List Lexeme} (d : VariableDefinition)
    (h : (scanText source).lexemes = front ++ (d.row ++ rest)) : d.Located source front := by
  constructor
  case name =>
    intro l hkind hdefined
    rw [row, VariableDefinition.front, hdefined] at h
    simp only [VariableSpelling.row, List.append_assoc] at h
    have hslice := isSliceOf_partText h
    -- The lexeme is whole, and so begins with the dollar sign
    have hl : l ∈ (scanText source).lexemes := by
      rw [h]
      simp
    obtain ⟨name, htext, -⟩ :=
      ((spells_scan source.toList).1.whole_of_kind l hl (by simp [hkind])).isName_drop hkind
    have hname : Declaration.partText [l] = "$" ++ d.declaration.name := by
      apply String.toList_inj.1
      simp [declaration, hdefined, VariableSpelling.name, Lexeme.variableName, Declaration.partText,
        Lexeme.spanText, htext]
    rwa [hname] at hslice
  case type =>
    have hrow : (scanText source).lexemes =
        (front ++ d.front) ++ (d.type ++ (d.default ++ (d.directives ++ rest))) := by
      simpa [row] using h
    exact isSliceOf_partText hrow
  case default =>
    intro sign value hdefault
    have hrow : (scanText source).lexemes =
        (front ++ (d.front ++ (d.type ++ [sign]))) ++ (value ++ (d.directives ++ rest)) := by
      simpa [row, hdefault] using h
    exact ⟨Declaration.partText value, by simp [declaration, hdefault], isSliceOf_partText hrow⟩
  case noDefault =>
    intro hnone
    rw [declaration, if_pos hnone]

end VariableDefinition

open VariableDefinition (rows)

/-- What is expected of definitions: they are read as what they declare, and what is read is read
back from what is printed of it, under its own names and under those of any entry. -/
structure ReadsExactly (ds : List VariableDefinition) : Prop where
  read : Declaration.readList (rows ds) = ds.map VariableDefinition.declaration
  printed : RoundTrips (Declaration.readList (rows ds))
  renamed : ∀ aliasName, BeginsName aliasName →
    RoundTrips ((Declaration.readList (rows ds)).map (Declaration.toEntry aliasName))

/-- How definitions that stand in a source behind a front are read. The texts of types and of
default values are slices of the source, so they keep the spelling that they have there, comments
included. -/
structure SignatureLaws (source : String) (front : List Lexeme) (ds : List VariableDefinition) :
    Prop where
  /-- The tokens of the definitions are read by slicing the source. -/
  sliced : Bytes.readList? source.toList
      (Bytes.tokensOf (byteLength (Lexeme.charsOf front)) (rows ds)) =
    some (Declaration.readList (rows ds))
  /-- What a definition declares is spelled as the definition is, wherever it stands. -/
  located : ∀ earlier d later, ds = earlier ++ d :: later →
    d.Located source (front ++ rows earlier)
  /-- The expectation is met exactly if each variable is written in one piece. -/
  expected : ReadsExactly ds ↔ ∀ d ∈ ds, d.Joined
  /-- Then a text can be put in front of the names exactly if it makes names. -/
  renamed : (∀ d ∈ ds, d.Joined) → ∀ aliasName,
    (RoundTrips ((Declaration.readList (rows ds)).map (Declaration.toEntry aliasName)) ↔
      ds = [] ∨ BeginsName aliasName)
  /-- The aliases of entries do. -/
  aliases : ∀ code, BeginsName (aliasOfCode code)

/-- **Definitions are read, printed and read again exactly if each variable is written in one
piece**, whatever is ignored between their tokens.

A dollar sign with a gap behind it is no variable for the scanner, so the definition that it begins
is passed over. -/
theorem signatureLaws {source : String} {front behind : List Lexeme} {closer : Lexeme}
    {ds : List VariableDefinition}
    (h : (scanText source).lexemes = front ++ (rows ds ++ closer :: behind)) :
    SignatureLaws source front ds := by
  have hread := Bytes.readAt_scan source.toList
  rw [← scanText, h] at hread
  have hrows := hread.append.2.append.1
  rw [Nat.zero_add] at hrows
  -- A lexeme behind the definitions ends the last of them
  have hmore : Lexeme.charsOf (closer :: behind) ++ (scanText source).trailer ≠ [] := by
    intro hnil
    obtain ⟨-, ⟨c, more, htext, -⟩, -⟩ :=
      (Lexeme.spells_append.1 (Lexeme.spells_append.1 hread.spelled).2).2
    simp [Lexeme.charsOf_cons, htext] at hnil
  have hwhole := hrows.spelled.whole hmore
  -- What is read of whole lexemes can be printed, under any name that is one
  have hprintable : (∀ d ∈ ds, d.Joined) →
      ∀ d ∈ Declaration.readList (rows ds), d.Printable := fun hjoined =>
    printable_of_definitions (VariableDefinition.derives_rows hjoined) hrows.spelled hwhole
  have hrenamed : (∀ d ∈ ds, d.Joined) → ∀ aliasName,
      (RoundTrips ((Declaration.readList (rows ds)).map (Declaration.toEntry aliasName)) ↔
        ds = [] ∨ BeginsName aliasName) := by
    intro hjoined aliasName
    have hiff := roundTrips_toEntry_iff (hprintable hjoined) aliasName
    rwa [VariableDefinition.readList_of_joined hjoined, List.map_eq_nil_iff,
      ← VariableDefinition.readList_of_joined hjoined] at hiff
  constructor
  case sliced => exact Bytes.readList?_eq hrows
  case located =>
    rintro earlier d later rfl
    -- The definition stands behind the earlier ones, and in front of the later ones and the closing
    -- bracket
    have hrow : (scanText source).lexemes =
        (front ++ rows earlier) ++ (d.row ++ (rows later ++ closer :: behind)) := by
      rw [h, VariableDefinition.rows_append, VariableDefinition.rows_cons]
      simp only [List.append_assoc]
    exact d.located hrow
  case expected =>
    refine ⟨fun hexact => VariableDefinition.readList_rows.1 hexact.read, fun hjoined => ?_⟩
    exact ⟨VariableDefinition.readList_of_joined hjoined,
      roundTrips_of_printable (hprintable hjoined),
      fun aliasName hbegins => (hrenamed hjoined aliasName).2 (.inr hbegins)⟩
  case renamed => exact hrenamed
  case aliases => exact beginsName_aliasOfCode

/-- The definition `$a:[A]=[1 ]@d`. -/
def listDefinition : VariableDefinition where
  defined := .joined ⟨[], .variable, ['$', 'a']⟩ rfl
  colon := ⟨[], .punctuator ':', [':']⟩
  type := ⟨[], .punctuator '[', ['[']⟩ :: [⟨[], .name, ['A']⟩] ++ [⟨[], .punctuator ']', [']']⟩]
  default := ⟨[], .punctuator '=', ['=']⟩ ::
    (⟨[], .punctuator '[', ['[']⟩ :: ([⟨[], .other, ['1']⟩] ++ []) ++
      [⟨[' '], .punctuator ']', [']']⟩])
  directives := ⟨[], .punctuator '@', ['@']⟩ :: ⟨[], .name, ['d']⟩ :: [] ++ []
  isColon := rfl
  isType := .listType rfl (.namedType rfl) rfl
  isDefault := .default rfl (.list rfl (.valuesCons (.literal (.inr (.inl rfl))) .valuesNil) rfl)
  areDirectives := .directivesCons rfl rfl .noArguments .directivesNil

/-- The definition `$c:D`, behind a comment. -/
def commentedDefinition : VariableDefinition where
  defined := .joined ⟨['#', 'b', '\n'], .variable, ['$', 'c']⟩ rfl
  colon := ⟨[], .punctuator ':', [':']⟩
  type := [⟨[], .name, ['D']⟩]
  default := []
  directives := []
  isColon := rfl
  isType := .namedType rfl
  isDefault := .noDefault
  areDirectives := .directivesNil

/-- The laws hold of a list with a default and a directive, and of what stands behind a comment. -/
theorem signatureLaws_listAndComment :
    ∃ front behind closer,
      (scanText "query($a:[A]=[1 ]@d#b\n$c:D){e}").lexemes =
          front ++ (rows [listDefinition, commentedDefinition] ++ closer :: behind) ∧
        SignatureLaws "query($a:[A]=[1 ]@d#b\n$c:D){e}" front
          [listDefinition, commentedDefinition] := by
  have hscan : (scanText "query($a:[A]=[1 ]@d#b\n$c:D){e}").lexemes =
      [⟨[], .name, "query".toList⟩, ⟨[], .punctuator '(', ['(']⟩] ++
        (rows [listDefinition, commentedDefinition] ++ ⟨[], .punctuator ')', [')']⟩ ::
          [⟨[], .punctuator '{', ['{']⟩, ⟨[], .name, ['e']⟩,
            ⟨[], .punctuator '}', ['}']⟩]) := by
    decide +kernel
  exact ⟨_, _, _, hscan, signatureLaws hscan⟩

/-- The definition `$ x: Int`. -/
def apartDefinition : VariableDefinition where
  defined := .apart ⟨[], .punctuator '$', ['$']⟩ ⟨[' '], .name, ['x']⟩ rfl rfl
  colon := ⟨[], .punctuator ':', [':']⟩
  type := [⟨[' '], .name, "Int".toList⟩]
  default := []
  directives := []
  isColon := rfl
  isType := .namedType rfl
  isDefault := .noDefault
  areDirectives := .directivesNil

/-- A definition with a blank behind its dollar sign is not read. -/
theorem not_readsExactly_blankBehindDollar :
    (∃ front behind closer, (scanText "query ($ x: Int) {a}").lexemes =
        front ++ (rows [apartDefinition] ++ closer :: behind)) ∧
      Declaration.readList (rows [apartDefinition]) = [] ∧ ¬ReadsExactly [apartDefinition] := by
  refine ⟨⟨[⟨[], .name, "query".toList⟩, ⟨[' '], .punctuator '(', ['(']⟩],
    [⟨[' '], .punctuator '{', ['{']⟩, ⟨[], .name, ['a']⟩, ⟨[], .punctuator '}', ['}']⟩],
    ⟨[], .punctuator ')', [')']⟩, by decide +kernel⟩, by decide +kernel, fun hexact => ?_⟩
  exact VariableDefinition.readList_rows.1 hexact.read apartDefinition List.mem_cons_self

end QueryWeave
