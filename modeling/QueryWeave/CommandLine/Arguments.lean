import QueryWeave.Files
import QueryWeave.Options

/-!
# Command-Line Arguments

How the words of a command line are read. An option takes its value from the same word, behind an
equals sign or directly behind its letter, or from the next word; after `--` every word is an
operation path. An option is recorded only when the word behind it is reached, so that a word that
nothing accepts is reported before a faulty value in front of it.

What is wrong with a command line is told by its kind (`UsageError`). The texts that are shown for
it, usage lines, help and suggestions of similar words, are left out, and so are words that are no
UTF-8. `--verbose` is read, but nothing is logged.
-/

namespace QueryWeave.CommandLine

/-! ## §1 Arguments -/

/-- Why a command line is not run. -/
inductive UsageError where
  | helpRequested
  | versionRequested
  | unknownCommand
  | unknownArgument
  | missingArgument
  /-- An argument that may stand once is repeated. -/
  | repeatedArgument
  /-- An option stands without its value. -/
  | missingValue
  | invalidValue
  /-- An option that takes no value has one. -/
  | unexpectedValue
  deriving Repr, DecidableEq

inductive CommandName where
  | compile
  | request
  deriving Repr, DecidableEq

/-- The arguments of the commands. -/
inductive Argument where
  | autodeclare
  | fragmentFileExts
  | fragments
  | mutation
  | variableValues
  | form
  | header
  | method
  | url
  | help
  /-- The paths of operations. -/
  | operations
  deriving Repr, DecidableEq

namespace Argument

def belongsTo (command : CommandName) : Argument → Bool
  | form | header | method | url => command = .request
  | _ => true

def ofLong? (name : String) : Option Argument :=
  if name = "autodeclare" then some autodeclare
  else if name = "fragment-file-exts" then some fragmentFileExts
  else if name = "fragments" then some fragments
  else if name = "mutation" then some mutation
  else if name = "variables" then some variableValues
  else if name = "form" then some form
  else if name = "header" then some header
  else if name = "method" then some method
  else if name = "url" then some url
  else if name = "help" then some help
  else none

def ofLetter? (letter : Char) : Option Argument :=
  if letter = 'f' then some fragments
  else if letter = 'H' then some header
  else if letter = 'h' then some help
  else none

def takesValue : Argument → Bool
  | autodeclare | mutation | form | help => false
  | _ => true

def repeats : Argument → Bool
  | fragmentFileExts | fragments | header | operations => true
  | _ => false

/-- What is wrong with a value, if anything: a path must not be empty, and a method must be
known. -/
def valueError? (argument : Argument) (value : String) : Option UsageError :=
  match argument with
  | fragments | operations => if value.isEmpty then some .missingValue else none
  | method => if (HttpMethod.ofText? value).isNone then some .invalidValue else none
  | _ => none

end Argument

/-- Arguments with their values, in the order in which they were recorded. -/
abbrev Given := List (Argument × List String)

namespace Given

def valuesOf (given : Given) (argument : Argument) : List String :=
  (given.filter fun entry => entry.1 = argument).flatMap Prod.snd

def has (given : Given) (argument : Argument) : Bool :=
  given.any fun entry => entry.1 = argument

/-- Record an argument. What is wrong with it is found out here and not where it was read, and so
what is reported of several errors is decided by the order of recording. -/
def record (given : Given) (argument : Argument) (values : List String) :
    Except UsageError Given :=
  if argument = .help then .error .helpRequested
  else if argument.takesValue && values.isEmpty then .error .missingValue
  else if !argument.repeats && given.has argument then .error .repeatedArgument
  else
    match values.findSome? argument.valueError? with
    | some e => .error e
    | none => .ok (given ++ [(argument, values)])

end Given

/-! ## §2 Reading the words of a command -/

/-- The words of a command as far as they were read. An option that takes a value is pending until
the next word shows whether it has one. -/
structure Progress where
  given : Given
  /-- The argument read last, if it is not recorded yet. -/
  pending : Option (Argument × List String)
  /-- Whether the pending option awaits its value. -/
  awaiting : Bool
  /-- Whether an operation path was read. -/
  hasPath : Bool
  /-- Whether only paths may follow. -/
  pathsOnly : Bool
  deriving Repr

namespace Progress

/-- Before the first word. -/
def start : Progress := ⟨[], none, false, false, false⟩

/-- Record what is pending. -/
def settle (p : Progress) : Except UsageError Progress :=
  match p.pending with
  | none => .ok { p with awaiting := false }
  | some (argument, values) => do
    let given ← p.given.record argument values
    return { p with given, pending := none, awaiting := false }

/-- Take an option with all its values. -/
def take (p : Progress) (argument : Argument) (values : List String) :
    Except UsageError Progress := do
  let settled ← p.settle
  let given ← settled.given.record argument values
  return { settled with given }

/-- Take an option whose value is the next word. -/
def await (p : Progress) (argument : Argument) : Except UsageError Progress := do
  let settled ← p.settle
  return { settled with pending := some (argument, []), awaiting := true }

/-- Take an operation path. -/
def takePath (command : CommandName) (p : Progress) (path : String) :
    Except UsageError Progress :=
  match command, p.pending with
  | .request, some (.operations, paths) =>
    .ok { p with pending := some (.operations, paths ++ [path]), awaiting := false }
  | .compile, _ =>
    if p.hasPath then .error .unknownArgument
    else do
      let settled ← p.settle
      return { settled with pending := some (.operations, [path]), hasPath := true }
  | .request, _ => do
    let settled ← p.settle
    return { settled with pending := some (.operations, [path]), hasPath := true }

/-- Take an option by its long name, with the value behind an equals sign if there is one. -/
def takeLong (command : CommandName) (p : Progress) (name : String) (value : Option String) :
    Except UsageError Progress :=
  match (Argument.ofLong? name).filter (Argument.belongsTo command), value with
  | none, _ => .error .unknownArgument
  | some argument, some value =>
    if argument.takesValue then p.take argument [value] else .error .unexpectedValue
  | some argument, none =>
    if argument.takesValue then p.await argument else p.take argument []

/-- Take the options of a word of letters. The rest behind the letter of an option with a value is
its value. -/
def takeLetters (command : CommandName) (p : Progress) : List Char → Except UsageError Progress
  | [] => .ok p
  | letter :: rest =>
    match (Argument.ofLetter? letter).filter (Argument.belongsTo command) with
    | none => .error .unknownArgument
    | some argument =>
      if argument.takesValue then
        match rest with
        | [] => p.await argument
        | '=' :: value => p.take argument [String.ofList value]
        | value => p.take argument [String.ofList value]
      else do
        let taken ← p.take argument []
        takeLetters command taken rest

/-- A long option split at its equals sign. -/
def splitLong (word : List Char) : String × Option String :=
  let name := String.ofList (word.takeWhile (· ≠ '='))
  match word.dropWhile (· ≠ '=') with
  | [] => (name, none)
  | _ :: value => (name, some (String.ofList value))

/-- Take one word: two dashes, a long option, a word of letters, the value that an option awaits, or
an operation path. -/
def step (command : CommandName) (p : Progress) (word : String) : Except UsageError Progress :=
  if p.pathsOnly then takePath command p word
  else
    match word.toList with
    | ['-', '-'] => .ok { p with pathsOnly := true, awaiting := false }
    | '-' :: '-' :: long =>
      let (name, value) := splitLong long
      takeLong command p name value
    | '-' :: letter :: letters => takeLetters command p (letter :: letters)
    | _ =>
      match p.awaiting, p.pending with
      | true, some (argument, values) =>
        .ok { p with pending := some (argument, values ++ [word]), awaiting := false }
      | _, _ => takePath command p word

end Progress

/-! ## §3 Commands -/

/-- What both commands are given. -/
structure SharedArguments where
  autodeclare : Bool
  /-- The extensions of fragment files, without leading dots. -/
  extensions : List String
  fragmentPaths : List String
  mutation : Bool
  variableValues : Option String
  deriving Repr, DecidableEq

/-- What is to be compiled and shown. -/
structure CompileArguments where
  shared : SharedArguments
  operationPath : String
  deriving Repr, DecidableEq

/-- What is to be compiled and sent. -/
structure RequestArguments where
  shared : SharedArguments
  form : Bool
  headers : List String
  method : HttpMethod
  operationPaths : List String
  url : String
  deriving Repr, DecidableEq

/-- A command with its arguments. -/
inductive Command where
  | compile (arguments : CompileArguments)
  | request (arguments : RequestArguments)
  deriving Repr, DecidableEq

/-- A command line. -/
structure Invocation where
  verbose : Bool
  command : Option Command
  deriving Repr, DecidableEq

namespace Given

/-- The extensions that values list between commas, without leading dots. -/
def extensionsOf (values : List String) : List String :=
  (values.flatMap fun value => Files.splitAt ',' value.toList).map fun extension =>
    String.ofList (extension.dropWhile (· = '.'))

def standardExtensions : List String := ["graphql", "gql"]

/-- The arguments that both commands share. -/
def shared (given : Given) : SharedArguments :=
  { autodeclare := given.has .autodeclare
    extensions :=
      if given.has .fragmentFileExts then extensionsOf (given.valuesOf .fragmentFileExts)
      else standardExtensions
    fragmentPaths := given.valuesOf .fragments
    mutation := given.has .mutation
    variableValues := (given.valuesOf .variableValues).head? }

/-- The command of the arguments given, if all that it needs is there. -/
def command (name : CommandName) (given : Given) : Except UsageError Command :=
  match name, given.valuesOf .operations, given.valuesOf .url with
  | .compile, path :: _, _ => .ok (.compile ⟨given.shared, path⟩)
  | .request, path :: paths, url :: _ =>
    .ok (.request
      { shared := given.shared
        form := given.has .form
        headers := given.valuesOf .header
        method := ((given.valuesOf .method).head? >>= HttpMethod.ofText?).getD .post
        operationPaths := path :: paths
        url })
  | _, _, _ => .error .missingArgument

end Given

/-- Read the words behind the name of a command. -/
def readCommand (name : CommandName) (words : List String) : Except UsageError Command := do
  let progress ← words.foldlM (Progress.step name) .start
  let settled ← progress.settle
  settled.given.command name

/-! ## §4 Command lines -/

def commandNamed? (word : String) : Option CommandName :=
  if word = "compile" then some .compile
  else if word = "request" then some .request
  else none

/-- What a request for help is about: nothing, or one command. -/
def readHelp : List String → UsageError
  | [] => .helpRequested
  | [word] =>
    if word = "help" || (commandNamed? word).isSome then .helpRequested else .unknownCommand
  | _ => .unknownCommand

/-- Take the letters of a word in front of the command. -/
def takeLeadLetters (verbose : Bool) : List Char → Except UsageError Bool
  | [] => .ok verbose
  | 'v' :: rest => if verbose then .error .repeatedArgument else takeLeadLetters true rest
  | 'h' :: _ => .error .helpRequested
  | 'V' :: _ => .error .versionRequested
  | _ => .error .unknownArgument

/-- Take a long option in front of the command. -/
def takeLeadLong (verbose : Bool) (name : String) (value : Option String) :
    Except UsageError Bool :=
  if name ∉ ["verbose", "help", "version"] then .error .unknownArgument
  else if value.isSome then .error .unexpectedValue
  else if name = "help" then .error .helpRequested
  else if name = "version" then .error .versionRequested
  else if verbose then .error .repeatedArgument
  else .ok true

/-- Read a command line whose options in front of the command are read up to `verbose`. -/
def readFrom (verbose : Bool) : List String → Except UsageError Invocation
  | [] => .ok ⟨verbose, none⟩
  | word :: rest =>
    match commandNamed? word with
    | some name => (readCommand name rest).map fun command => ⟨verbose, some command⟩
    | none =>
      if word = "help" then .error (readHelp rest)
      else
        match word.toList with
        | ['-', '-'] =>
          match rest with
          | [] => .ok ⟨verbose, none⟩
          | next :: _ =>
            if next = "help" || (commandNamed? next).isSome then .error .unknownArgument
            else .error .unknownCommand
        | '-' :: '-' :: long => do
          let (name, value) := Progress.splitLong long
          let verbose ← takeLeadLong verbose name value
          readFrom verbose rest
        | '-' :: letter :: letters => do
          let verbose ← takeLeadLetters verbose (letter :: letters)
          readFrom verbose rest
        | _ => .error .unknownCommand

def read (words : List String) : Except UsageError Invocation :=
  readFrom false words

end QueryWeave.CommandLine
