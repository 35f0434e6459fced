import SchemaDoc.Schema.Constraint

/-!
# Hints

The hints of a constraint are written over the document of its base, one after the other. A
numeric exclusive bound is written in the older form of the bound itself and a flag.
-/
namespace SchemaDoc

namespace Constraint

/-- What one hint writes. -/
def writes (name : String) (value : Json) : Members :=
  match value with
  | .number _ =>
    if name = "exclusiveMinimum" then [("minimum", value), ("exclusiveMinimum", .bool true)]
    else if name = "exclusiveMaximum" then [("maximum", value), ("exclusiveMaximum", .bool true)]
    else [(name, value)]
  | value => [(name, value)]

/-- Everything a constraint writes, in order. -/
def allWrites (constraint : Constraint) : Members :=
  constraint.hints.flatMap fun hint => writes hint.1 hint.2

/-- Writes the hints of a constraint over a document. -/
def apply (document : Members) (constraint : Constraint) : Members :=
  Members.putAll document constraint.allWrites

/-- Writes the hints of several constraints over a document, in order. -/
def applyAll (document : Members) (constraints : List Constraint) : Members :=
  constraints.foldl apply document

end Constraint

end SchemaDoc
