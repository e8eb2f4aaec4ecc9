import QueryWeave.Fragment.Closure
import QueryWeave.Operation.Outline
import QueryWeave.Variable.Inference

/-!
# Compilation

A template becomes a document: its signature is filled in, its spreads are written by flat name,
and the definition of every fragment it needs is appended once.
-/

namespace QueryWeave

/-! ## §1 Filling in the signature -/

/-- Declarations between parentheses, or nothing where there are none. -/
def signatureChars (ds : List Declaration) : List Char :=
  if ds.isEmpty then [] else '(' :: (Declaration.listText ds).toList ++ [')']

/-- A gap without its last character, if that is a blank. A signature that is taken out takes it
along, so that no two blanks are left. -/
def dropLastBlank (gap : List Char) : List Char :=
  if gap.getLast? = some ' ' then gap.dropLast else gap

namespace Outline

/-- The text from behind the signature to the end. -/
def behindSignature (o : Outline) : List Char :=
  Lexeme.charsOf (o.middle ++ o.selection.row ++ o.after) ++ o.trailer

/-- The text with declarations in place of the signature `old`. An empty signature takes the
blank in front of it along. -/
def replaceSignature (o : Outline) (old : Enclosed) (ds : List Declaration) : List Char :=
  let gap := if ds.isEmpty then dropLastBlank old.opener.gap else old.opener.gap
  Lexeme.charsOf o.lead ++ gap ++ signatureChars ds ++ o.behindSignature

/-- The text with declarations put directly in front of the selection set. -/
def insertSignature (o : Outline) (ds : List Declaration) : List Char :=
  let insertion := if ds.isEmpty then [] else signatureChars ds ++ [' ']
  Lexeme.charsOf (o.lead ++ o.signatureRow ++ o.middle) ++ o.selection.opener.gap ++ insertion ++
    (o.selection.opener.text ++
      Lexeme.charsOf (o.selection.inner ++ [o.selection.closer] ++ o.after))
    ++ o.trailer

end Outline

/-- An operation with its signature filled in. -/
structure Declared where
  text : String
  declarations : List Declaration
  warnings : List Warning
  deriving Repr

/-- Fill in the signature of an operation. A missing signature is filled in on request only, a
request is replaced, and a signature that is written out is read and left as it is. -/
def Outline.declare (o : Outline) (source : String) (values : JsonObject) (whenAbsent : Bool) :
    Declared :=
  let inferred := infer o.referencedVariables values
  match o.signature, o.signatureKind with
  | some signature, .autodeclare =>
    ⟨String.ofList (o.replaceSignature signature inferred.declarations), inferred.declarations,
      inferred.warnings⟩
  -- Written out: what it declares is read, and whether the values fit is not asked
  | some signature, _ => ⟨source, Declaration.readList signature.inner, []⟩
  | none, _ =>
    if whenAbsent then
      ⟨String.ofList (o.insertSignature inferred.declarations), inferred.declarations,
        inferred.warnings⟩
    else ⟨source, [], []⟩

/-! ## §2 Compiled operations -/

/-- A compiled operation. -/
structure Compiled where
  kind : OperationKind
  name : Option String
  declarations : List Declaration
  /-- The operation by itself, with spreads written by flat name. -/
  operation : String
  /-- The flat names of the fragments needed, each behind those it spreads. -/
  fragmentNames : List String
  /-- The definitions of those fragments, in the same order. -/
  fragments : List String
  warnings : List Warning
  deriving Repr

def Compiled.document (c : Compiled) : String :=
  "\n".intercalate (c.operation :: c.fragments)

/-- Compile a template against a library.

The spreads are resolved in the text with its signature, so that nothing has to be moved again; the
steps fail in this order, and the first failure is the error. -/
def Library.compile (lib : Library) (template : Template) (values : JsonObject)
    (declareWhenAbsent : Bool) : Except CompileError Compiled := do
  match Outline.ofText? template.source with
  | none => throw (.unbalancedTemplate template.source)
  | some outline =>
    let declared := outline.declare template.source values declareWhenAbsent
    -- From here on the library is asked; whatever was wrong with the variables is a warning
    let resolved ← lib.resolve declared.text
    let fragments ← lib.definitions resolved.used
    return {
      kind := template.kind
      name := outline.name
      declarations := declared.declarations
      operation := resolved.text
      fragmentNames := resolved.used
      fragments
      warnings := declared.warnings }

end QueryWeave
