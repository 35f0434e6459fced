/-!
# Locations in a document

A `Location` is the way from the root of a projected document to one of its schemas. It is written
as a JSON pointer after a number sign; in the names of properties `~` and `/` are escaped. A
projection that fails tells the location it has come to.
-/
namespace SchemaDoc

/-- A step from a schema to a schema in it. -/
inductive LocationStep where
  | property (name : String)
  | additionalProperties
  | items
  | item (place : Nat)
  | additionalItems
  | alternative (place : Nat)
deriving DecidableEq, Repr

/-- The steps from the root, in order. -/
abbrev Location := List LocationStep

namespace LocationStep

/-- The members that the step goes through. -/
def tokens : LocationStep → List String
  | property name => ["properties", name]
  | additionalProperties => ["additionalProperties"]
  | items => ["items"]
  | item place => ["items", toString place]
  | additionalItems => ["additionalItems"]
  | alternative place => ["oneOf", toString place]

end LocationStep

namespace Location

def escapedChar (c : Char) : List Char :=
  if c = '~' then ['~', '0'] else if c = '/' then ['~', '1'] else [c]

/-- A token in a pointer. -/
def escape (token : String) : String := String.ofList (token.toList.flatMap escapedChar)

/-- The tokens from the root. -/
def tokens (location : Location) : List String := location.flatMap LocationStep.tokens

/-- The location as text. -/
def text (location : Location) : String :=
  (tokens location).foldl (fun acc token => acc ++ "/" ++ escape token) "#"

end Location

/-! ## Failures of a projection -/

inductive ProjectionError where
  /-- More references are resolved inside one another than the cap allows. -/
  | depthExceeded (cap : Nat) (location : Location)
  /-- A number literal that JSON cannot write. -/
  | nonFiniteLiteral (location : Location)
deriving DecidableEq, Repr

def ProjectionError.message : ProjectionError → String
  | depthExceeded cap location =>
    s!"recursive references exceed the maximum depth of {cap} at '{Location.text location}'"
  | nonFiniteLiteral location =>
    s!"unsupported schema node (non-finite number literal) at '{Location.text location}'"

end SchemaDoc
