import SchemaDoc.Json.Canonical
import SchemaDoc.Projection.Location
import SchemaDoc.Schema.Basic

/-!
# Documents of unions

A union of literals of one scalar type is an enumeration. Any other union is the list of the
different documents of its members, or that document if there is only one. When all of them are
objects that are told apart by one property, the list comes with this discriminator.
-/
namespace SchemaDoc

namespace Alternatives

/-! ## Enumerations -/

/-- The scalar type and the different values of members that are literals of one type; the first
member that is not one ends the search. Members are given as the literals they are, if so. -/
def literalValues (location : Location) :
    Option String → List Json → List (Option Literal) →
      Except ProjectionError (Option (String × List Json))
  | scalar, values, [] => .ok (scalar.map (·, values))
  | scalar, values, member :: rest =>
    match member with
    | none => .ok none
    | some literal =>
      if scalar.all (· = literal.scalarType) then
        match literal.toJson? with
        | none => .error (.nonFiniteLiteral location)
        | some value =>
          let values := if values.any (Json.equal value) then values else values ++ [value]
          literalValues location (some literal.scalarType) values rest
      else .ok none

/-- The document of a literal or of several values of a scalar type. -/
def enumeration (scalar : String) (values : List Json) : Members :=
  if scalar = "null" then [("type", .string "null")]
  else [("type", .string scalar), ("enum", .array values)]

/-- The enumeration that two or more members make, if they do. -/
def literalEnum (location : Location) (members : List (Option Literal)) :
    Except ProjectionError (Option Members) :=
  if members.length < 2 then .ok none
  else do
    let found ← literalValues location none [] members
    return found.map fun (scalar, values) => enumeration scalar values

/-! ## Discriminators -/

/-- The single value that a property of an object document may have. -/
def literalProperty? (document : Members) (name : String) : Option Json := do
  let properties ← Members.get? document "properties"
  let property ← properties.get? name
  if (property.get? "type").bind Json.string? = some "null" then return .null
  match (← property.get? "enum").items? with
  | some [only] => return only
  | _ => none

def isObjectDocument (document : Members) : Bool :=
  (Members.get? document "type").bind Json.string? = some "object"

/-- No two values of a list are equal. -/
def pairwiseDistinct : List Json → Bool
  | [] => true
  | value :: rest => rest.all (fun other => !value.equal other) && pairwiseDistinct rest

/-- The property by which object documents are told apart: the only one that is a single value in
all of them, if these values differ. -/
def discriminator? (documents : List Members) : Option String :=
  if documents.length < 2 ∨ !documents.all isObjectDocument then none
  else do
    let first ← documents.head?
    let properties ← (← Members.get? first "properties").members?
    let shared := (Members.names properties).filter fun name =>
      documents.all fun document => (literalProperty? document name).isSome
    match shared with
    | [name] =>
      if pairwiseDistinct (documents.filterMap (literalProperty? · name)) then some name else none
    | _ => none

/-! ## Joining -/

/-- Leaves out documents that are like an earlier one up to the order of members. -/
def distinct (seen : List String) : List Members → List Members
  | [] => []
  | document :: rest =>
    let key := (Json.object document).key
    if key ∈ seen then distinct seen rest else document :: distinct (key :: seen) rest

/-- The list of documents, with the property by which they are told apart if there is one. -/
def listed (documents : List Members) : Members :=
  let alternatives : Members := [("oneOf", .array (documents.map Json.object))]
  match discriminator? documents with
  | some name => alternatives ++ [("discriminator", .object [("propertyName", .string name)])]
  | none => alternatives

/-- The document for any one of several. -/
def join (documents : List Members) : Members :=
  match documents with
  | [only] => only
  | documents =>
    match distinct [] documents with
    | [only] => only
    | different => listed different

end Alternatives

end SchemaDoc
