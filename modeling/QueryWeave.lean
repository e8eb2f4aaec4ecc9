import QueryWeave.CommandLine.Run
import QueryWeave.Http.Message
import QueryWeave.Main
import QueryWeave.Proofs.Batch.Run
import QueryWeave.Proofs.Batch.Woven
import QueryWeave.Proofs.Bindings
import QueryWeave.Proofs.Batch.Tickets
import QueryWeave.Proofs.Batch.Places
import QueryWeave.Proofs.Batch.Naming
import QueryWeave.Proofs.Names
import QueryWeave.Proofs.Batch.Answers
import QueryWeave.Proofs.Lexeme.Gap
import QueryWeave.Proofs.Lexeme.Spelling
import QueryWeave.Proofs.Lexeme.Balance
import QueryWeave.Proofs.Spread
import QueryWeave.Proofs.Fragment.Closure
import QueryWeave.Proofs.Batch.Copies
import QueryWeave.Proofs.Batch.Isolation
import QueryWeave.Proofs.Batch.Walk
import QueryWeave.Proofs.Batch.Keys
import QueryWeave.Proofs.Batch.Selection
import QueryWeave.Proofs.Operation.Outline
import QueryWeave.Proofs.Batch.Entries
import QueryWeave.Proofs.Batch.Inlining
import QueryWeave.Proofs.Operation.Compile
import QueryWeave.Proofs.Batch.Meaning
import QueryWeave.Proofs.Operation.Grammar
import QueryWeave.Proofs.Operation.Signature
import QueryWeave.Proofs.Lexeme.Written
import QueryWeave.Proofs.Operation.Printing
import QueryWeave.Proofs.Variable.Inference
import QueryWeave.Proofs.Operation.Landmarks
import QueryWeave.Proofs.Operation.Declared
import QueryWeave.Proofs.Batch.Origins
import QueryWeave.Proofs.Lexeme.Sealed
import QueryWeave.Proofs.Batch.Document
import QueryWeave.Proofs.Batch.Preserved
import QueryWeave.Proofs.Fragment.Reachable
import QueryWeave.Proofs.Fragment.History
import QueryWeave.Proofs.Batch.Glued
import QueryWeave.Proofs.Batch.Variables
import QueryWeave.Proofs.Batch.Supplied
import QueryWeave.Proofs.Batch.Definitions
import QueryWeave.Proofs.Batch.Keyword
import QueryWeave.Proofs.Batch.Aggregate
import QueryWeave.Proofs.Batch.Dependent
import QueryWeave.Proofs.Batch.Fields
import QueryWeave.Proofs.Batch.Aliasing
import QueryWeave.Proofs.Operation.Parts
import QueryWeave.Proofs.Operation.Requested
import QueryWeave.Proofs.Files.Leaves
import QueryWeave.Proofs.Files.Loading
import QueryWeave.Proofs.Bytes.Merge
import QueryWeave.Proofs.Fragment.Resolved
import QueryWeave.Proofs.Lexeme.Nesting
import QueryWeave.Proofs.Operation.Brackets
import QueryWeave.Proofs.Operation.Shorthand
import QueryWeave.Proofs.Lexeme.Joined
import QueryWeave.Proofs.Fragment.Complete
import QueryWeave.Proofs.Fragment.Repeated
import QueryWeave.Proofs.Fragment.Naming
import QueryWeave.Proofs.Operation.Relevant
import QueryWeave.Proofs.Operation.Mentioned
import QueryWeave.Proofs.Operation.Accounted
import QueryWeave.Proofs.Fragment.Condition
import QueryWeave.Proofs.Variable.Carried
import QueryWeave.Proofs.Variable.Agreement
import QueryWeave.Proofs.Operation.Definition
import QueryWeave.Proofs.Http.Form
import QueryWeave.Proofs.Json.Numbers
import QueryWeave.Proofs.Json.Marks
import QueryWeave.Proofs.Json.Compact
import QueryWeave.Proofs.Json.Members
import QueryWeave.Proofs.Http.Encodings
import QueryWeave.Proofs.Records
import QueryWeave.Proofs.CommandLine.DryRun
import QueryWeave.Proofs.Bytes.Tiling
import QueryWeave.Proofs.Bytes.Locality
import QueryWeave.Proofs.Bytes.Sites
import QueryWeave.Proofs.Fragment.Served
