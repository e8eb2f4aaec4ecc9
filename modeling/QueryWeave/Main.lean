import QueryWeave.CommandLine.Run

/-!
# The Program

Collects the files that a command line names, runs the command, and prints what it reports. The
program has no connection to a network: a command that sends a request reports that it is not sent.
-/

namespace QueryWeave.CommandLine

/-! ## §1 What a command reads -/

/-- What the arguments of both commands name: libraries, and the file of the variables. -/
def SharedArguments.paths (a : SharedArguments) : List String :=
  a.fragmentPaths ++ match a.variableValues.map String.toList with
    | some ('@' :: path) => [String.ofList path]
    | _ => []

/-- The paths that a command reads. -/
def Command.paths : Command → List String
  | .compile a => a.operationPath :: a.shared.paths
  | .request a => a.operationPaths ++ a.shared.paths

/-- The ways to the directories on a path, and to its end. -/
def waysOn (path : String) : List (List String) :=
  let step (ways : List (List String)) (name : String) : List (List String) :=
    let here := ways.head?.getD []
    if name = "" || name = "." then ways
    else if name = ".." then Files.above here :: ways
    else (here ++ [name]) :: ways
  ((Files.pathNames path).foldl step [Files.startOf path]).reverse

/-- A path that leads along a way. -/
def pathOf : List String → String
  | [] => "."
  | "/" :: names => "/" ++ "/".intercalate names
  | names => "/".intercalate names

/-! ## §2 Collecting files -/

/-- Add a file with its contents, or a directory with everything below it if `deep` asks for it.
What cannot be read is left out. -/
partial def collect (deep : Bool) (fs : Files) (way : List String) (entry : IO.FS.DirEntry) :
    IO Files := do
  if ← entry.path.isDir then
    let found := { fs with directories := way :: fs.directories }
    if deep then
      (← entry.path.readDir).foldlM
        (fun found inner => collect deep found (way ++ [inner.fileName]) inner) found
    else return found
  else if (fs.contents? way).isSome then return fs
  else
    match ← (IO.FS.readFile entry.path).toBaseIO with
    | .ok contents => return { fs with files := (way, contents) :: fs.files }
    | .error _ => return fs

/-- Add all that lies on a path and, if it ends at a directory, below it. -/
def collectPath (fs : Files) (path : String) : IO Files := do
  let directory ← IO.currentDir
  let ways := waysOn path
  let found ← ways.dropLast.foldlM
    (fun found way => collect false found way ⟨directory, pathOf way⟩) fs
  match ways.getLast? with
  | none => return found
  | some way => collect true found way ⟨directory, pathOf way⟩

/-! ## §3 Printing -/

/-- How the program is used. -/
def usage : String :=
  "Usage: queryweave [-v | --verbose] [-V | --version] [-h | --help] <command>

  compile [options] <operation>
  request [options] --url <url> [--method <method>] [--header <name: value>] [--form]
          <operation>...

Options of both commands:
  -f, --fragments <path>           a fragment library: a JSON file or a directory
      --fragment-file-exts <exts>  extensions of the fragment files in a directory
      --variables <json | @path>   variables as a JSON object
      --autodeclare                declare the variables of operations without a signature
      --mutation                   read operations as mutations"

/-- The name and the version of the program. -/
def version : String := "queryweave 0.1.1"

/-- What is said about a command line that is not run. -/
def UsageError.message : UsageError → String
  | helpRequested => usage
  | versionRequested => version
  | unknownCommand => "error: unknown command"
  | unknownArgument => "error: unexpected argument"
  | missingArgument => "error: a required argument is missing"
  | repeatedArgument => "error: an argument is given more than once"
  | missingValue => "error: a value is required"
  | invalidValue => "error: invalid value"
  | unexpectedValue => "error: unexpected value"

/-- Print what is said about a command line that is not run. -/
def printUsage (e : UsageError) : IO UInt32 := do
  if e = .helpRequested || e = .versionRequested then
    IO.println e.message
    return 0
  else
    IO.eprintln e.message
    return 2

def printReport : Report → IO UInt32
  | .ok out => do
    IO.println out
    return 0
  | .error message => do
    IO.eprintln message
    return 1

/-- Codes for the aliases of a command, as many as it may need. They are drawn here, outside of
everything that is proved, and the laws of batches ask of them only what they say. -/
def drawCodes (count : Nat) : IO AliasCodes := do
  let codes ← (List.range count).mapM fun _ => IO.rand 0 (aliasCodeCount - 1)
  return (AliasCodes.ofList? codes).getD ⟨0, []⟩

def runCommand (command : Command) : IO UInt32 := do
  let fs ← command.paths.foldlM collectPath ⟨[], []⟩
  let codes ← drawCodes command.paths.length
  let outcome := .error (.transport "there is no connection to a network")
  printReport ((command.run fs codes).result outcome)

end QueryWeave.CommandLine

def main (words : List String) : IO UInt32 :=
  match QueryWeave.CommandLine.read words with
  | .error e => QueryWeave.CommandLine.printUsage e
  | .ok ⟨_, none⟩ => QueryWeave.CommandLine.printUsage .helpRequested
  | .ok ⟨_, some command⟩ => QueryWeave.CommandLine.runCommand command
