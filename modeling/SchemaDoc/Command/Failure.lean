import SchemaDoc.Command.Expansion
import SchemaDoc.Definition.Format
import SchemaDoc.Issue.Basic
import SchemaDoc.Projection.Location

/-!
# Failures of commands

A command stops at its first failure, which is told in a message and, where something outside the
command is to blame, its cause.
-/
namespace SchemaDoc.Command

inductive Failure where
  | unresolved (error : ExpansionError)
  | unread (path : String) (error : FileError)
  | invalidDefinition (path : String) (error : LoadError)
  | unprojected (path : String) (error : ProjectionError)
  /-- A text that is no failure tree, with the issues that this is. -/
  | malformedTree (path : String) (issues : List Issue)
  | uncreated (directory : String) (error : FileError)
  | unwritten (path : String) (error : FileError)

namespace Failure

def message : Failure → String
  | unresolved error => "failed to resolve input file paths: " ++ error.message
  | unread path _ => s!"failed to read source file ({path})"
  | invalidDefinition path _ => s!"invalid definition file ({path})"
  | unprojected path _ => s!"failed to project ({path})"
  | malformedTree path issues =>
    s!"malformed issue tree ({path}): " ++ "; ".intercalate (issues.map Issue.line)
  | uncreated directory _ => s!"failed to create {directory}"
  | unwritten path _ => s!"failed to write {path}"

def cause? : Failure → Option String
  | unresolved _ => none
  | unread _ error => some error.message
  | invalidDefinition _ error => some error.message
  | unprojected _ error => some error.message
  | malformedTree _ _ => none
  | uncreated _ error => some error.message
  | unwritten _ error => some error.message

/-- The lines of a text, each four places further to the right. -/
def indented (text : String) : String := "    " ++ "\n    ".intercalate (text.splitOn "\n")

/-- The failure as it is told. -/
def text (failure : Failure) : String :=
  let cause :=
    match failure.cause? with
    | some cause => "\n\nCaused by:\n" ++ indented cause
    | none => ""
  "Error: " ++ failure.message ++ cause ++ "\n"

end Failure

end SchemaDoc.Command
