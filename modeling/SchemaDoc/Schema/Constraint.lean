import SchemaDoc.Json.Basic

/-!
# Constraints

A constraint narrows a base schema. It carries the members that it contributes to the projected
document.
-/
namespace SchemaDoc

structure Constraint where
  kind : String
  hints : Members

namespace Constraint

/-- A constraint with one hint. -/
def single (kind name : String) (value : Json) : Constraint := ⟨kind, [(name, value)]⟩

def minLength (n : Nat) : Constraint := single "minLength" "minLength" (.ofNat n)

def maxLength (n : Nat) : Constraint := single "maxLength" "maxLength" (.ofNat n)

def minItems (n : Nat) : Constraint := single "minItems" "minItems" (.ofNat n)

def maxItems (n : Nat) : Constraint := single "maxItems" "maxItems" (.ofNat n)

def pattern (text : String) : Constraint := single "pattern" "pattern" (.string text)

def format (name : String) : Constraint := single "format" "format" (.string name)

/-- Whole numbers only. -/
def int : Constraint := single "int" "type" (.string "integer")

def greaterThan (x : Binary64) : Constraint :=
  single "greaterThan" "exclusiveMinimum" (.ofBinary64 x)

def lessThan (x : Binary64) : Constraint := single "lessThan" "exclusiveMaximum" (.ofBinary64 x)

def greaterThanOrEqual (x : Binary64) : Constraint :=
  single "greaterThanOrEqualTo" "minimum" (.ofBinary64 x)

def lessThanOrEqual (x : Binary64) : Constraint :=
  single "lessThanOrEqualTo" "maximum" (.ofBinary64 x)

end Constraint

end SchemaDoc
