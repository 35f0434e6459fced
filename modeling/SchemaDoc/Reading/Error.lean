import SchemaDoc.Json.Printer
import SchemaDoc.Source.Fault
import SchemaDoc.Text.Quoted

/-!
# Errors of typed reading

A `ReadError` has a cause, the path from the outermost value to where it was found, and the offset
at which a text is to blame. `Cause.message` is the only place where causes are put into words.
-/
namespace SchemaDoc

/-- What was found where something else was expected. -/
inductive Found where
  | null
  | bool (value : Bool)
  | integer (value : Int)
  | float (value : Double)
  | string (value : String)
  | sequence
  | map
  | unitVariant

inductive Cause where
  | malformed (malformation : Malformation)
  /-- A value of another type. -/
  | invalidType (found : Found) (expected : String)
  /-- A value of the type that is not allowed. -/
  | invalidValue (found : Found) (expected : String)
  /-- A list of another length. -/
  | invalidLength (length : Nat) (expected : String)
  | missingField (name : String)
  | duplicateField (name : String)
  /-- A name a closed record does not have. -/
  | unknownField (name : String) (known : List String)
  | unknownVariant (name : String) (known : List String)

/-- A step from a value to a part of it. -/
inductive PathStep where
  | index (place : Nat)
  | key (name : String)
  | variant (name : String)
  /-- Into an object, but to no member of it. -/
  | unnamed
deriving DecidableEq, Repr

structure ReadError where
  cause : Cause
  path : List PathStep
  offset : Nat

namespace Found

def ofNumber : Number → Found
  | .integer n => integer n
  | .float x => float x

def message : Found → String
  | null => "null"
  | bool b => s!"boolean `{b}`"
  | integer n => s!"integer `{n}`"
  | float x => "floating point `" ++ String.ofList (x.chars Number.style) ++ "`"
  | string text => "string " ++ Text.shown text
  | sequence => "sequence"
  | map => "map"
  | unitVariant => "unit variant"

end Found

namespace Cause

def ticked (name : String) : String := "`" ++ name ++ "`"

/-- The names that would have been right. -/
def oneOf : List String → String
  | [] => "there are no choices"
  | [a] => "expected " ++ ticked a
  | [a, b] => "expected " ++ ticked a ++ " or " ++ ticked b
  | names => "expected one of " ++ ", ".intercalate (names.map ticked)

def message : Cause → String
  | malformed malformation => malformation.message
  | invalidType found expected => "invalid type: " ++ found.message ++ ", expected " ++ expected
  | invalidValue found expected => "invalid value: " ++ found.message ++ ", expected " ++ expected
  | invalidLength length expected => s!"invalid length {length}, expected " ++ expected
  | missingField name => "missing field " ++ ticked name
  | duplicateField name => "duplicate field " ++ ticked name
  | unknownField name known => "unknown field " ++ ticked name ++ ", " ++ oneOf known
  | unknownVariant name known => "unknown variant " ++ ticked name ++ ", " ++ oneOf known

end Cause

namespace PathStep

/-- The text of a path: indices in brackets, other steps after points, and a point alone for the
outermost value. -/
def pathText (path : List PathStep) : String :=
  match path with
  | [] => "."
  | path => go true path
where
  go (first : Bool) : List PathStep → String
    | [] => ""
    | index place :: rest => s!"[{place}]" ++ go false rest
    | key name :: rest => dot first ++ name ++ go false rest
    | variant name :: rest => dot first ++ name ++ go false rest
    | unnamed :: rest => dot first ++ "?" ++ go false rest
  dot (first : Bool) : String := if first then "" else "."

/-- The name of a step as a segment of a path, if it has one. -/
def segment? : PathStep → Option String
  | index place => some (toString place)
  | key name => some name
  | variant name => some name
  | unnamed => none

end PathStep

namespace ReadError

/-- An error about a value itself. -/
def here (cause : Cause) (offset : Nat) : ReadError := ⟨cause, [], offset⟩

/-- A malformed text. -/
def ofFault (fault : Fault) : ReadError := ⟨.malformed fault.malformation, [], fault.offset⟩

/-- The error seen from the value one step further out. -/
def under (step : PathStep) (error : ReadError) : ReadError :=
  { error with path := step :: error.path }

end ReadError

/-- A result of the part that the step leads to, as a result of the value. -/
def PathStep.into {α : Type} (step : PathStep) (result : Except ReadError α) :
    Except ReadError α :=
  result.mapError (ReadError.under step)

end SchemaDoc
