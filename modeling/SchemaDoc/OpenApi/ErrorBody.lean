import SchemaDoc.Schema.Basic

/-!
# The schema of error bodies

The schema that describes the body of a response to rejected input.
-/
namespace SchemaDoc.OpenApi

/-- The name under which the schema of error bodies is published. -/
def errorBodyComponent : String := "ValidationError"

/-- The identity of a numbered part of the schema. -/
def errorBodyPlace (n : Nat) : Identity := (Identity.definition errorBodyComponent).part n

def errorBodyText (n : Nat) : Schema := .make (errorBodyPlace n) (.primitive .string)

/-- One issue: only its message is always there. -/
def issueSchema : Schema :=
  .make (errorBodyPlace 0) <| .struct
    [⟨"field", errorBodyText 1, true⟩,
      ⟨"message", errorBodyText 2, false⟩,
      ⟨"path", .array (errorBodyPlace 3) (errorBodyText 4), true⟩,
      ⟨"value", .make (errorBodyPlace 5) (.primitive .unknown), true⟩]
    none

def errorBodySchema : Schema :=
  .make (.definition errorBodyComponent) <| .struct
    [⟨"message", errorBodyText 6, false⟩, ⟨"issues", .array (errorBodyPlace 7) issueSchema, false⟩]
    none

def errorBodyGraph : Graph := ⟨[], errorBodySchema⟩

end SchemaDoc.OpenApi
