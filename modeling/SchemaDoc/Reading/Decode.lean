import SchemaDoc.Issue.Basic
import SchemaDoc.Reading.Basic
import SchemaDoc.Source.OfText

/-!
# Decoding with failures as trees

A text or a value is decoded by a typed reader. Reading stops at the first error, which becomes a
tree of one leaf inside a wrapper for each step of its path that has a name.
-/
namespace SchemaDoc

namespace ReadError

/-- A name as far as it can be told from a message that puts it between backticks. -/
def quotedName (name : String) : String := String.ofList (name.toList.takeWhile (· ≠ '`'))

/-- The failure tree of an error. A missing member is addressed by its name; so is an unknown
member, whose name mostly ends the path already. -/
def issueTree (error : ReadError) : IssueTree :=
  let segments := error.path.filterMap PathStep.segment?
  match error.cause with
  | .missingField name => .withinAll (segments ++ [quotedName name]) (.missing none)
  | .unknownField name _ =>
    let shown := quotedName name
    let address := if segments.getLast? = some shown then segments else segments ++ [shown]
    .withinAll address (.typeMismatch "is unexpected" none)
  | cause => .withinAll segments (.typeMismatch cause.message none)

end ReadError

/-- A value of a type, or the error met first. -/
abbrev Decoded (α : Type) := Except ReadError α

namespace Reader

variable {α : Type} (read : Reader α)

/-- Reads the first value of a text. -/
def ofText (text : String) : Decoded α := read .freshText (Source.ofText text)

/-- Reads a value in memory. -/
def ofValue (value : Json) : Decoded α := read .memory (Source.ofJson value)

/-- Decodes the first value of a text. -/
def decodeText (text : String) : Except IssueTree α :=
  (ofText read text).mapError ReadError.issueTree

/-- Decodes a value in memory. -/
def decodeValue (value : Json) : Except IssueTree α :=
  (ofValue read value).mapError ReadError.issueTree

end Reader

/-- The first value of a text, nested to any depth. -/
def Json.ofText (text : String) : Except ReadError Json :=
  Reader.json .buffer (Source.ofText text)

end SchemaDoc
