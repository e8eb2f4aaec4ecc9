import Mathlib.Data.List.Chain
import QueryWeave.Operation.Template
import QueryWeave.Proofs.Lexeme.Nesting
import QueryWeave.Spread

/-!
# Well-Formed Operations

The grammar of operations, over rows of lexemes. Fragments are spread by paths, whose segments
touch. What the grammar says about brackets, colons and at signs is enough for much of what follows:
every phrase closes the brackets it opens by their own kind, and in front of a closing bracket
something has ended, rather than a colon or at sign announcing more.

- `Derives`: the rows of each phrase.
- `Template.WellFormed`: templates that hold one operation.
- `Derives.orderly`: brackets and what stands beside them.
-/

namespace QueryWeave

/-! ## §1 The grammar -/

/-- What the grammar has rules for. Values, and what holds values, are constant where no variable
may stand. -/
inductive Phrase where
  | value (constant : Bool)
  | values (constant : Bool)
  /-- Names with values, as arguments or as an object has them. -/
  | members (constant : Bool)
  | arguments (constant : Bool)
  | directives (constant : Bool)
  | typeReference
  | default
  | definitions
  | signature
  /-- The segments of a path behind its first name. -/
  | segments
  | condition
  | field
  | selection
  | selections
  | selectionSet
  | subselection
  | operation

/-- The rows of lexemes that make up a phrase. -/
inductive Derives : Phrase → List Lexeme → Prop
  | literal {constant : Bool} {l : Lexeme}
      (h : l.kind = .name ∨ l.kind = .other ∨ l.kind = .stringValue) :
      Derives (.value constant) [l]
  | variableUse {l : Lexeme} (h : l.kind = .variable) : Derives (.value false) [l]
  | list {constant : Bool} {opener closer : Lexeme} {items : List Lexeme}
      (hopener : opener.isMark '[' = true) (hitems : Derives (.values constant) items)
      (hcloser : closer.isMark ']' = true) :
      Derives (.value constant) (opener :: items ++ [closer])
  | object {constant : Bool} {opener closer : Lexeme} {items : List Lexeme}
      (hopener : opener.isMark '{' = true) (hitems : Derives (.members constant) items)
      (hcloser : closer.isMark '}' = true) :
      Derives (.value constant) (opener :: items ++ [closer])
  | valuesNil {constant : Bool} : Derives (.values constant) []
  | valuesCons {constant : Bool} {item items : List Lexeme}
      (hitem : Derives (.value constant) item) (hitems : Derives (.values constant) items) :
      Derives (.values constant) (item ++ items)
  | membersNil {constant : Bool} : Derives (.members constant) []
  | membersCons {constant : Bool} {name colon : Lexeme} {item items : List Lexeme}
      (hname : name.kind = .name) (hcolon : colon.isMark ':' = true)
      (hitem : Derives (.value constant) item) (hitems : Derives (.members constant) items) :
      Derives (.members constant) (name :: colon :: item ++ items)
  | noArguments {constant : Bool} : Derives (.arguments constant) []
  | arguments {constant : Bool} {opener closer : Lexeme} {items : List Lexeme}
      (hopener : opener.isMark '(' = true) (hitems : Derives (.members constant) items)
      (hsome : items ≠ []) (hcloser : closer.isMark ')' = true) :
      Derives (.arguments constant) (opener :: items ++ [closer])
  | directivesNil {constant : Bool} : Derives (.directives constant) []
  | directivesCons {constant : Bool} {sign name : Lexeme} {arguments others : List Lexeme}
      (hsign : sign.isMark '@' = true) (hname : name.kind = .name)
      (harguments : Derives (.arguments constant) arguments)
      (hothers : Derives (.directives constant) others) :
      Derives (.directives constant) (sign :: name :: arguments ++ others)
  | namedType {name : Lexeme} (hname : name.kind = .name) : Derives .typeReference [name]
  | listType {opener closer : Lexeme} {item : List Lexeme} (hopener : opener.isMark '[' = true)
      (hitem : Derives .typeReference item) (hcloser : closer.isMark ']' = true) :
      Derives .typeReference (opener :: item ++ [closer])
  | nonNullType {item : List Lexeme} {mark : Lexeme} (hitem : Derives .typeReference item)
      (hmark : mark.isMark '!' = true) : Derives .typeReference (item ++ [mark])
  | noDefault : Derives .default []
  | default {sign : Lexeme} {item : List Lexeme} (hsign : sign.isMark '=' = true)
      (hitem : Derives (.value true) item) : Derives .default (sign :: item)
  | definitionsNil : Derives .definitions []
  | definitionsCons {defined colon : Lexeme} {type defaultRow directives others : List Lexeme}
      (hdefined : defined.kind = .variable) (hcolon : colon.isMark ':' = true)
      (htype : Derives .typeReference type) (hdefault : Derives .default defaultRow)
      (hdirectives : Derives (.directives true) directives)
      (hothers : Derives .definitions others) :
      Derives .definitions
        (defined :: colon :: (type ++ (defaultRow ++ (directives ++ others))))
  | noSignature : Derives .signature []
  | signature {opener closer : Lexeme} {definitions : List Lexeme}
      (hopener : opener.isMark '(' = true) (hdefinitions : Derives .definitions definitions)
      (hsome : definitions ≠ []) (hcloser : closer.isMark ')' = true) :
      Derives .signature (opener :: definitions ++ [closer])
  /-- The request for inferred definitions. -/
  | autodeclare {opener sign name closer : Lexeme} (hopener : opener.isMark '(' = true)
      (hsign : sign.isMark '@' = true) (hname : name.kind = .name)
      (hword : name.word = "autodeclare") (hcloser : closer.isMark ')' = true) :
      Derives .signature [opener, sign, name, closer]
  | segmentsNil : Derives .segments []
  | segmentsCons {dot segment : Lexeme} {others : List Lexeme}
      (hsegment : continuesPath dot segment = true) (hothers : Derives .segments others) :
      Derives .segments (dot :: segment :: others)
  | noCondition : Derives .condition []
  | condition {on name : Lexeme} (hon : on.kind = .name) (hword : on.text = ['o', 'n'])
      (hname : name.kind = .name) : Derives .condition [on, name]
  | field {name : Lexeme} {arguments directives selections : List Lexeme}
      (hname : name.kind = .name) (harguments : Derives (.arguments false) arguments)
      (hdirectives : Derives (.directives false) directives)
      (hselections : Derives .subselection selections) :
      Derives .field (name :: (arguments ++ (directives ++ selections)))
  | bareField {field : List Lexeme} (hfield : Derives .field field) : Derives .selection field
  | aliasedField {name colon : Lexeme} {field : List Lexeme} (hname : name.kind = .name)
      (hcolon : colon.isMark ':' = true) (hfield : Derives .field field) :
      Derives .selection (name :: colon :: field)
  | spread {dots head : Lexeme} {segments directives : List Lexeme} (hdots : dots.kind = .ellipsis)
      (hhead : beginsPath head = true) (hsegments : Derives .segments segments)
      (hdirectives : Derives (.directives false) directives) :
      Derives .selection (dots :: head :: (segments ++ directives))
  | inlineFragment {dots : Lexeme} {condition directives selections : List Lexeme}
      (hdots : dots.kind = .ellipsis) (hcondition : Derives .condition condition)
      (hdirectives : Derives (.directives false) directives)
      (hselections : Derives .selectionSet selections) :
      Derives .selection (dots :: (condition ++ (directives ++ selections)))
  | selectionsNil : Derives .selections []
  | selectionsCons {first others : List Lexeme} (hfirst : Derives .selection first)
      (hothers : Derives .selections others) : Derives .selections (first ++ others)
  | selectionSet {opener closer : Lexeme} {selections : List Lexeme}
      (hopener : opener.isMark '{' = true) (hselections : Derives .selections selections)
      (hsome : selections ≠ []) (hcloser : closer.isMark '}' = true) :
      Derives .selectionSet (opener :: selections ++ [closer])
  | noSubselection : Derives .subselection []
  | subselection {selections : List Lexeme} (hselections : Derives .selectionSet selections) :
      Derives .subselection selections
  | shorthand {selections : List Lexeme} (hselections : Derives .selectionSet selections) :
      Derives .operation selections
  | anonymous {keyword : Lexeme} {signature directives selections : List Lexeme}
      (hkeyword : keyword.isKeyword = true) (hsignature : Derives .signature signature)
      (hdirectives : Derives (.directives false) directives)
      (hselections : Derives .selectionSet selections) :
      Derives .operation (keyword :: (signature ++ (directives ++ selections)))
  | named {keyword name : Lexeme} {signature directives selections : List Lexeme}
      (hkeyword : keyword.isKeyword = true) (hname : name.kind = .name)
      (hsignature : Derives .signature signature)
      (hdirectives : Derives (.directives false) directives)
      (hselections : Derives .selectionSet selections) :
      Derives .operation (keyword :: name :: (signature ++ (directives ++ selections)))

/-- Whether a lexeme may follow another without a gap: a name must not touch a number. -/
def Apart (l next : Lexeme) : Prop :=
  l.kind = .other → next.kind = .name → next.gap ≠ []

/-- A template that holds one operation, in which no name touches a number. The grammar has any
number of ignored characters between two tokens; only a number in front of a name needs them. -/
structure Template.WellFormed (t : Template) : Prop where
  derives : Derives .operation (scanText t.source).lexemes
  apart : (scanText t.source).lexemes.IsChain Apart

/-! ## §2 Orderly rows

An orderly row nests, begins with no closing bracket and ends with nothing that announces more.
These are facts about the first and the last lexeme and about brackets, so they can be put
together. -/

/-- Whether a lexeme announces that something follows. -/
def Lexeme.announces (l : Lexeme) : Bool :=
  l.isMark ':' || l.isMark '@'

/-- Whether a lexeme may stand behind another: nothing is closed where something is announced. -/
def Ends (l next : Lexeme) : Prop :=
  l.announces = true → next.closes = false

/-- A row whose brackets nest, and that closes none where something is announced. All phrases have
this in common, whatever they are. -/
structure Orderly (row : List Lexeme) : Prop where
  nested : Nested Lexeme.mates row
  chain : row.IsChain Ends
  head : ∀ l ∈ row.head?, l.closes = false
  last : ∀ l ∈ row.getLast?, l.announces = false

/-- A lexeme that neither is a bracket nor announces anything. -/
def Lexeme.Plain (l : Lexeme) : Prop :=
  l.opens = false ∧ l.closes = false ∧ l.announces = false

theorem Lexeme.plain_of_kind {l : Lexeme} {kind : LexemeKind} (h : l.kind = kind)
    (hkind : ∀ mark, kind ≠ .punctuator mark) : l.Plain := by
  have hbracket := not_bracket (l := l) (h ▸ hkind)
  exact ⟨hbracket.1, hbracket.2, by simp [announces, isMark, h, hkind]⟩

theorem Lexeme.plain_of_isMark {l : Lexeme} {mark : Char} (h : l.isMark mark = true)
    (hmark : mark ∉ ['{', '(', '[', '}', ')', ']', ':', '@']) : l.Plain := by
  have hkind := isMark_iff.1 h
  simp only [List.mem_cons, List.not_mem_nil, or_false, not_or] at hmark
  simp [Plain, opens, closes, announces, isMark, hkind, hmark]

theorem Orderly.balanced {row : List Lexeme} (h : Orderly row) : Balanced row :=
  h.nested.balanced

theorem orderly_nil : Orderly [] :=
  ⟨.nil, .nil, by simp, by simp⟩

theorem Lexeme.Plain.orderly {l : Lexeme} (h : l.Plain) : Orderly [l] :=
  ⟨nested_singleton h.1 h.2.1, .singleton l, by simp [h.2.1], by simp [h.2.2]⟩

theorem Orderly.append {first second : List Lexeme} (hfirst : Orderly first)
    (hsecond : Orderly second) : Orderly (first ++ second) where
  -- At the seam nothing is closed, since no orderly row begins with a closing bracket
  nested := hfirst.nested.append hsecond.nested
  chain := by
    rw [List.isChain_append]
    exact ⟨hfirst.chain, hsecond.chain, fun l _ next hnext _ => hsecond.head next hnext⟩
  head := by
    intro l hl
    rw [List.head?_append, Option.mem_def, Option.or_eq_some_iff] at hl
    rcases hl with hl | ⟨-, hl⟩
    · exact hfirst.head l hl
    · exact hsecond.head l hl
  last := by
    intro l hl
    rw [List.getLast?_append, Option.mem_def, Option.or_eq_some_iff] at hl
    rcases hl with hl | ⟨-, hl⟩
    · exact hsecond.last l hl
    · exact hfirst.last l hl

theorem Lexeme.Plain.cons {l : Lexeme} (h : l.Plain) {row : List Lexeme} (hrow : Orderly row) :
    Orderly (l :: row) :=
  h.orderly.append hrow

/-- What is announced follows. -/
theorem Orderly.announced {l : Lexeme} (hopens : l.opens = false) (hcloses : l.closes = false)
    {row : List Lexeme} (hrow : Orderly row) (hsome : row ≠ []) : Orderly (l :: row) where
  nested := .plain hopens hcloses hrow.nested
  chain := by
    rw [List.isChain_cons]
    exact ⟨fun next hnext _ => hrow.head next hnext, hrow.chain⟩
  head := by simpa using hcloses
  last := by
    intro m hm
    rw [List.getLast?_cons_of_ne_nil hsome] at hm
    exact hrow.last m hm

theorem Orderly.enclose {opener closer : Lexeme} {row : List Lexeme} (h : Orderly row)
    (hmates : opener.mates closer = true) : Orderly (opener :: row ++ [closer]) := by
  obtain ⟨hopens, hcloses⟩ := Lexeme.opens_of_mates hmates
  have hopener : opener.closes = false := by
    by_contra hboth
    rw [not_opens_of_closes (Bool.of_not_eq_false hboth)] at hopens
    cases hopens
  have hcloser : closer.announces = false := by
    rcases Lexeme.closes_iff.1 hcloses with hkind | hkind | hkind <;>
      simp [Lexeme.announces, Lexeme.isMark, hkind]
  refine ⟨h.nested.enclose hmates, ?_, by simp [hopener], ?_⟩
  · rw [List.cons_append, List.isChain_cons, List.isChain_append]
    refine ⟨fun next hnext hannounces => ?_, h.chain, .singleton closer, ?_⟩
    · -- A bracket announces nothing
      rcases Lexeme.opens_iff.1 hopens with hkind | hkind | hkind <;>
        simp [Lexeme.announces, Lexeme.isMark, hkind] at hannounces
    · -- And neither does what stands last in the row
      intro l hl _ _ hannounces
      rw [h.last l hl] at hannounces
      cases hannounces
  · intro l hl
    rw [List.getLast?_concat, Option.mem_some_iff] at hl
    exact hl ▸ hcloser

/-! ## §3 Phrases are orderly -/

theorem Derives.value_ne_nil {constant : Bool} {row : List Lexeme}
    (h : Derives (.value constant) row) : row ≠ [] := by
  cases h <;> simp

theorem Derives.type_ne_nil {row : List Lexeme} (h : Derives .typeReference row) : row ≠ [] := by
  cases h <;> simp

theorem Derives.field_ne_nil {row : List Lexeme} (h : Derives .field row) : row ≠ [] := by
  cases h
  simp

/-- Helper: a row between a bracket and its mate. -/
private theorem orderly_between {opener closer : Lexeme} {row : List Lexeme} {left right : Char}
    (hrow : Orderly row) (hopener : opener.isMark left = true)
    (hcloser : closer.isMark right = true)
    (hpair : (left, right) ∈ [('{', '}'), ('(', ')'), ('[', ']')]) :
    Orderly (opener :: row ++ [closer]) := by
  simp only [List.mem_cons, Prod.mk.injEq, List.not_mem_nil, or_false] at hpair
  apply hrow.enclose
  rcases hpair with ⟨rfl, rfl⟩ | ⟨rfl, rfl⟩ | ⟨rfl, rfl⟩ <;> simp [Lexeme.mates, hopener, hcloser]

/-- Helper: a colon or at sign in front of what it announces. -/
private theorem orderly_announce {l : Lexeme} {mark : Char} (h : l.isMark mark = true)
    (hmark : mark ∈ [':', '@']) {row : List Lexeme} (hrow : Orderly row) (hsome : row ≠ []) :
    Orderly (l :: row) := by
  have hkind := Lexeme.isMark_iff.1 h
  simp only [List.mem_cons, List.not_mem_nil, or_false] at hmark
  rcases hmark with rfl | rfl <;>
    exact hrow.announced (by simp [Lexeme.opens, Lexeme.isMark, hkind])
      (by simp [Lexeme.closes, Lexeme.isMark, hkind]) hsome

theorem Lexeme.plain_of_isName {l : Lexeme} (h : l.kind = .name) : l.Plain :=
  plain_of_kind h (by simp)

theorem Lexeme.isName_of_isKeyword {l : Lexeme} (h : l.isKeyword = true) : l.kind = .name := by
  simp only [isKeyword, isName, Bool.and_eq_true, decide_eq_true_eq] at h
  exact h.1

/-- Every phrase is orderly. The induction has one case for each rule of the grammar, and nearly all
of them are an append, or brackets put around a row. -/
theorem Derives.orderly {phrase : Phrase} {row : List Lexeme} (h : Derives phrase row) :
    Orderly row := by
  induction h with
  -- Brackets enclose, colons and at signs announce, everything else stands in a row
  | literal h =>
    rcases h with h | h | h <;> exact (Lexeme.plain_of_kind h (by simp)).orderly
  | variableUse h => exact (Lexeme.plain_of_kind h (by simp)).orderly
  | list hopener _ hcloser ih =>
    exact orderly_between ih hopener hcloser (by decide)
  | object hopener _ hcloser ih =>
    exact orderly_between ih hopener hcloser (by decide)
  | valuesCons _ _ ihItem ihItems => exact ihItem.append ihItems
  | membersCons hname hcolon hitem _ ihItem ihItems =>
    have hcolonItem := orderly_announce hcolon (by decide) ihItem hitem.value_ne_nil
    exact ((Lexeme.plain_of_isName hname).cons hcolonItem).append ihItems
  | arguments hopener _ _ hcloser ih =>
    exact orderly_between ih hopener hcloser (by decide)
  | directivesCons hsign hname _ _ ihArguments ihOthers =>
    have hnamed := (Lexeme.plain_of_isName hname).cons ihArguments
    exact (orderly_announce hsign (by decide) hnamed (by simp)).append ihOthers
  | namedType hname => exact (Lexeme.plain_of_isName hname).orderly
  | listType hopener _ hcloser ih =>
    exact orderly_between ih hopener hcloser (by decide)
  | nonNullType _ hmark ih =>
    exact ih.append (Lexeme.plain_of_isMark hmark (by decide)).orderly
  | default hsign _ ih => exact (Lexeme.plain_of_isMark hsign (by decide)).cons ih
  | definitionsCons hdefined hcolon htype _ _ _ ihType ihDefault ihDirectives ihOthers =>
    have hbehind := ihType.append (ihDefault.append (ihDirectives.append ihOthers))
    exact (Lexeme.plain_of_kind hdefined (by simp)).cons
      (orderly_announce hcolon (by decide) hbehind (by simp [htype.type_ne_nil]))
  | signature hopener _ _ hcloser ih =>
    exact orderly_between ih hopener hcloser (by decide)
  | autodeclare hopener hsign hname _ hcloser =>
    have hnamed := (Lexeme.plain_of_isName hname).orderly
    have hinner := orderly_announce hsign (by decide) hnamed (by simp)
    exact orderly_between hinner hopener hcloser (by decide)
  | segmentsCons hsegment _ ih =>
    simp only [continuesPath, Bool.and_eq_true, Lexeme.isName, decide_eq_true_eq] at hsegment
    have hdot := Lexeme.plain_of_isMark hsegment.1.1.1 (by decide)
    exact hdot.cons ((Lexeme.plain_of_isName hsegment.1.2).cons ih)
  | condition hon _ hname =>
    exact (Lexeme.plain_of_isName hon).cons (Lexeme.plain_of_isName hname).orderly
  | field hname _ _ _ ihArguments ihDirectives ihSelections =>
    exact (Lexeme.plain_of_isName hname).cons
      (ihArguments.append (ihDirectives.append ihSelections))
  | bareField _ ih => exact ih
  | aliasedField hname hcolon hfield ih =>
    exact (Lexeme.plain_of_isName hname).cons
      (orderly_announce hcolon (by decide) ih hfield.field_ne_nil)
  | spread hdots hhead _ _ ihSegments ihDirectives =>
    have hname : _ = LexemeKind.name := kind_of_beginsPath hhead
    exact (Lexeme.plain_of_kind hdots (by simp)).cons
      ((Lexeme.plain_of_kind hname (by simp)).cons (ihSegments.append ihDirectives))
  | inlineFragment hdots _ _ _ ihCondition ihDirectives ihSelections =>
    exact (Lexeme.plain_of_kind hdots (by simp)).cons
      (ihCondition.append (ihDirectives.append ihSelections))
  | selectionsCons _ _ ihFirst ihOthers => exact ihFirst.append ihOthers
  | selectionSet hopener _ _ hcloser ih =>
    exact orderly_between ih hopener hcloser (by decide)
  | subselection _ ih => exact ih
  | shorthand _ ih => exact ih
  | anonymous hkeyword _ _ _ ihSignature ihDirectives ihSelections =>
    exact (Lexeme.plain_of_isName (Lexeme.isName_of_isKeyword hkeyword)).cons
      (ihSignature.append (ihDirectives.append ihSelections))
  | named hkeyword hname _ _ _ ihSignature ihDirectives ihSelections =>
    exact (Lexeme.plain_of_isName (Lexeme.isName_of_isKeyword hkeyword)).cons
      ((Lexeme.plain_of_isName hname).cons
        (ihSignature.append (ihDirectives.append ihSelections)))
  | _ => exact orderly_nil

end QueryWeave
