import QueryWeave.Json.Writer
import QueryWeave.Names
import QueryWeave.Variable.Key

/-!
# Inferred Declarations

The declarations of an operation that leaves them to be inferred, and what is sent for them. Two
passes go over the keys. One picks the values to be sent and knows which names it has bound so far;
the other finds out about types and knows which names it has looked at. In both, the first key that
carries a name counts, whatever stands under it: a value that has no type is warned about, and no
later key of that name is looked at.
-/

namespace QueryWeave

/-! ## §1 What is sent -/

/-- Put a variable under its bare name, unless something is sent under that name already. -/
def sendVariable (sent : JsonObject) (given : String × Json) : JsonObject :=
  sent.putNew (VariableKey.read given.1).name given.2

/-- The variables under their bare names, as they are sent. -/
def stripModifiers (values : JsonObject) : JsonObject :=
  values.foldl sendVariable []

/-! ## §2 Findings -/

/-- Why a variable is not declared. -/
inductive Warning where
  /-- The value has no type. -/
  | untyped (name : String) (value : Json)
  /-- The variable is referenced, but no value is given. -/
  | unknown (name : String)
  deriving Repr

def Warning.message : Warning → String
  | untyped name value =>
    "Unable to infer a GraphQL type for variable `$" ++ name ++ "` from value `" ++
      value.compact ++ "`; it will not be declared."
  | unknown name =>
    "Variable `$" ++ name ++ "` is referenced but has no value to infer a type from; " ++
      "it will not be declared."

/-- What is found out about one name. -/
inductive Finding where
  | declared (declaration : Declaration)
  | warned (warning : Warning)
  deriving Repr

namespace Finding

def declaration? : Finding → Option Declaration
  | declared d => some d
  | warned _ => none

def warning? : Finding → Option Warning
  | declared _ => none
  | warned w => some w

/-- What a key and its value say. -/
def ofVariable (key : VariableKey) (value : Json) : Finding :=
  match key.declaration? (some value) with
  | some d => declared d
  | none => warned (.untyped key.name value)

/-- What a name says by itself. -/
def ofReference (name : String) : Finding :=
  if namesIdentifier name then declared ⟨name, "ID!", none⟩ else warned (.unknown name)

end Finding

/-- How far inference has come: the names that were looked at, and what was found out about each of
them. -/
structure Inferring where
  seen : List String
  findings : List Finding
  deriving Repr

namespace Inferring

/-- Look at a name, unless it was looked at before. What was found out then stands, even if it was
nothing more than a warning. -/
def look (state : Inferring) (name : String) (finding : Finding) : Inferring :=
  if name ∈ state.seen then state
  else ⟨state.seen ++ [name], state.findings ++ [finding]⟩

/-- Look at a variable that is given. -/
def lookAtVariable (state : Inferring) (given : String × Json) : Inferring :=
  let key := VariableKey.read given.1
  state.look key.name (Finding.ofVariable key given.2)

/-- Look at a name that is referenced. -/
def lookAtReference (state : Inferring) (name : String) : Inferring :=
  state.look name (Finding.ofReference name)

end Inferring

/-- What is found out about the given variables, and then about the other names referenced. -/
def inferFindings (referenced : List String) (values : JsonObject) : List Finding :=
  -- The given variables come first, so a reference counts only where nothing was given
  (referenced.foldl Inferring.lookAtReference
    (values.foldl Inferring.lookAtVariable ⟨[], []⟩)).findings

/-- Inferred declarations, with the warnings given on the way. -/
structure Inference where
  declarations : List Declaration
  warnings : List Warning
  deriving Repr

/-- Infer the declarations for the names referenced from the variables given. -/
def infer (referenced : List String) (values : JsonObject) : Inference :=
  let findings := inferFindings referenced values
  ⟨findings.filterMap Finding.declaration?, findings.filterMap Finding.warning?⟩

end QueryWeave
