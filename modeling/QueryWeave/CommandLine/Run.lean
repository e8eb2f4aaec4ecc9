import QueryWeave.Client
import QueryWeave.CommandLine.Arguments
import QueryWeave.Files.Loading
import QueryWeave.Text.Quoted

/-!
# Running Commands

`compile` shows the document of one operation. `request` sends one operation, or several in one
request, and shows the data that comes back. Both report the first thing that goes wrong.
-/

namespace QueryWeave.CommandLine

/-! ## §1 Errors and reports -/

/-- What went wrong in a command. -/
inductive CommandError where
  | load (cause : LoadError)
  | compile (cause : CompileError)
  | client (cause : ClientError)
  /-- A header has no colon. -/
  | header (text : String)
  deriving Repr

def CommandError.message : CommandError → String
  | load cause => cause.message
  | compile cause => cause.message
  | client cause => cause.message
  | header text => s!"Expected a `Name: value` header, found `{text}`"

/-- What a command prints: its result, or what went wrong. -/
abbrev Report := Except String String

def failureMark : String := "❌"

/-! ## §2 What both commands do -/

namespace SharedArguments

def kind (a : SharedArguments) : OperationKind :=
  if a.mutation then .mutation else .query

/-- The fragment trees of all libraries. All are loaded before any is registered. -/
def loadTrees (a : SharedArguments) (fs : Files) : Except CommandError (List FragmentTree) :=
  (a.fragmentPaths.mapM (fs.loadFragments a.extensions)).mapError .load

def loadTemplate (a : SharedArguments) (fs : Files) (path : String) :
    Except CommandError Template := do
  let source ← (fs.read path).mapError fun e => .load (.file e)
  return .prepare a.kind (Text.trim source)

/-- The variables, none if no argument gives them. -/
def loadVariables (a : SharedArguments) (fs : Files) : Except CommandError JsonObject :=
  match a.variableValues with
  | none => .ok []
  | some argument => (fs.loadVariables argument).mapError .load

end SharedArguments

def registerTrees (lib : Library) : List FragmentTree → Except CommandError Library
  | [] => .ok lib
  | tree :: rest =>
    match lib.registerTree tree with
    | (next, none) => registerTrees next rest
    | (_, some e) => .error (.compile e)

/-! ## §3 Compiling -/

/-- The document of the operation. -/
def CompileArguments.document (a : CompileArguments) (fs : Files) : Except CommandError String := do
  let trees ← a.shared.loadTrees fs
  let lib ← registerTrees .empty trees
  let template ← a.shared.loadTemplate fs a.operationPath
  let values ← a.shared.loadVariables fs
  let compiled ← (lib.compile template values a.shared.autodeclare).mapError .compile
  return compiled.document

def CompileArguments.run (a : CompileArguments) (fs : Files) : Report :=
  (a.document fs).mapError fun e =>
    failureMark ++ " Failed to compile " ++ Text.quoted a.operationPath ++ ": " ++ e.message

/-! ## §4 Sending -/

/-- A header split at its first colon, both sides without blanks around them. Whether HTTP allows
the header is found out where it is sent. -/
def readHeader (text : String) : Except CommandError (String × String) :=
  let name := text.toList.takeWhile (· ≠ ':')
  match text.toList.dropWhile (· ≠ ':') with
  | [] => .error (.header text)
  | _ :: value =>
    .ok (String.ofList (Text.trimBlank name), String.ofList (Text.trimBlank value))

namespace RequestArguments

/-- The key under which several operations are merged. -/
def batchKey : String := "cli"

def addTrees (c : Client) : List FragmentTree → Except CommandError Client
  | [] => .ok c
  | tree :: rest =>
    match c.addFragments tree with
    | (next, none) => addTrees next rest
    | (_, some e) => .error (.compile e)

/-- The client that sends: all trees are loaded before the first is added, and the headers are read
last. -/
def client (a : RequestArguments) (fs : Files) (codes : AliasCodes) :
    Except CommandError Client := do
  let trees ← a.shared.loadTrees fs
  let options : ClientOptions := ⟨a.shared.autodeclare, [], a.method⟩
  let c ← addTrees (.start (some a.url) options codes) trees
  let headers ← a.headers.mapM readHeader
  return c.addHeaders headers

/-- Merge several operations under one key. Each file is read when its turn comes, with the same
variables for all, and the first failure ends the command. -/
def mergeAll (a : RequestArguments) (fs : Files) (values : JsonObject) (c : Client) :
    List String → Except CommandError Client
  | [] => .ok c
  | path :: rest => do
    let template ← a.shared.loadTemplate fs path
    match c.merge batchKey template values with
    | (_, .error e) => throw (.client e)
    | (merged, .ok _) => mergeAll a fs values merged rest

/-- A result at the border of the client. -/
def fromClient (result : OperationResult) : Except CommandError JsonObject :=
  result.mapError .client

/-- What is sent once everything is loaded. One operation is sent by itself, and keeps its keyword
and its name; several are sent as a batch. -/
def exchange (a : RequestArguments) (fs : Files) (c : Client) (values : JsonObject) :
    Except CommandError (Exchange (Except CommandError JsonObject)) :=
  match a.operationPaths with
  | [path] => do
    let template ← a.shared.loadTemplate fs path
    return (c.run template values).map fromClient
  | paths => do
    let merged ← a.mergeAll fs values c paths
    return (merged.commit batchKey).map fun answer => fromClient answer.2

/-- Load everything, send the operations, and give their data. -/
def send (a : RequestArguments) (fs : Files) (codes : AliasCodes) :
    Exchange (Except CommandError JsonObject) :=
  let prepared := do
    let c ← a.client fs codes
    let values ← a.shared.loadVariables fs
    a.exchange fs c values
  match prepared with
  | .error e => .finished (.error e)
  | .ok exchange => exchange

/-- The report on what came back. -/
def report (a : RequestArguments) : Except CommandError JsonObject → Report
  | .ok data => .ok (Json.object data).indented
  | .error e => .error (failureMark ++ " Request to " ++ a.url ++ " failed: " ++ e.message)

def run (a : RequestArguments) (fs : Files) (codes : AliasCodes) : Exchange Report :=
  (a.send fs codes).map a.report

end RequestArguments

def Command.run (fs : Files) (codes : AliasCodes) : Command → Exchange Report
  | .compile a => .finished (a.run fs)
  | .request a => a.run fs codes

end QueryWeave.CommandLine
