import SchemaDoc.Command.Failure
import SchemaDoc.Command.Help
import SchemaDoc.Command.Listing
import SchemaDoc.Issue.Format

/-!
# Running commands

`Command.run` does what the words after the program's name ask for, over any access to files. All
sources are read before the first one is looked into, and nothing is written unless all of them
are good.
-/
namespace SchemaDoc.Command

/-- How a program ends and what it has said. -/
structure Completion where
  code : Nat
  output : String
  complaint : String
deriving DecidableEq, Repr

/-- A source and the path it was read from. -/
structure SourceFile where
  path : String
  text : String
deriving DecidableEq, Repr

/-- The document of a source. -/
def SourceFile.document (options : ProjectionOptions) (source : SourceFile) :
    Except Failure Members := do
  let graph ← (Graph.ofText source.text).mapError (.invalidDefinition source.path)
  (graph.project options).mapError (.unprojected source.path)

/-- The issues of the failure tree that a source holds. -/
def SourceFile.issues (source : SourceFile) : Except Failure (List Issue) :=
  match IssueTree.read.decodeText source.text with
  | .ok tree => .ok tree.issues
  | .error problem => .error (.malformedTree source.path problem.issues)

/-- A single document stands alone; several stand under the paths of their sources. -/
def combined (documents : List (String × Json)) : Json :=
  match documents with
  | [(_, document)] => document
  | documents => .object (Members.ofList documents)

namespace SchemaCommand

def options (command : SchemaCommand) : ProjectionOptions :=
  ⟨command.maxDepth, command.metaSchema⟩

/-- What the command makes of its sources. -/
def result (command : SchemaCommand) (sources : List SourceFile) : Except Failure String := do
  let documents ← sources.mapM fun source => do
    return (source.path, Json.object (← source.document command.options))
  return (combined documents).pretty

end SchemaCommand

namespace IssuesCommand

/-- What the command makes of its sources. -/
def result (command : IssuesCommand) (colored : Bool) (sources : List SourceFile) :
    Except Failure String := do
  let issues := (← sources.mapM SourceFile.issues).flatten
  if command.pretty then return Listing.ofIssues colored issues
  else return (ErrorBody.ofIssues issues).toJson.pretty

end IssuesCommand

section Access

variable {m : Type → Type} [Monad m] (files : FileAccess m)

/-- The sources that the inputs stand for. -/
def load (inputs : List String) : ExceptT Failure m (List SourceFile) := do
  let paths ← (Expansion.inputs files inputs).adapt Failure.unresolved
  paths.mapM fun path => do
    match ← files.read path with
    | .ok text => return ⟨path, text⟩
    | .error error => throw (.unread path error)

/-- Writes a text to a file, with the directories around it, or says it. -/
def deliver (out : Option String) (text : String) : ExceptT Failure m String := do
  match out with
  | none => return text ++ "\n"
  | some path =>
    if let some directory := Path.parent? path then
      if let .error error ← files.createAll directory then throw (.uncreated directory error)
    match ← files.write path text with
    | .ok _ => return ""
    | .error error => throw (.unwritten path error)

/-- Does what is asked; the result is what is said. -/
def perform (colored : Bool) (action : Action) : ExceptT Failure m String := do
  match action with
  | .schema command =>
    if command.noOp then return ""
    let sources ← load files command.inputs
    deliver files command.out (← command.result sources)
  | .issues command =>
    let sources ← load files command.inputs
    deliver files command.out (← command.result colored sources)

/-- Does what the words after the program's name ask for. -/
def run (colored : Bool) (words : List String) : m Completion := do
  match Action.ofWords words with
  | .error (.help topic) => return ⟨0, topic.text, ""⟩
  | .error .version => return ⟨0, versionText, ""⟩
  | .error (.misuse error) => return ⟨2, "", s!"error: {error.message}\n"⟩
  | .ok action =>
    match ← (perform files colored action).run with
    | .ok output => return ⟨0, output, ""⟩
    | .error failure => return ⟨1, "", failure.text⟩

end Access

end SchemaDoc.Command
