import SchemaDoc.Json.Printer

/-!
# A key for values up to the order of members

`Json.canonical` puts the members of every object in the order of their names. The compact text of
the result, `Json.key`, is the same for two values exactly when they differ in nothing but the
order of members and in numbers that are written alike.
-/
namespace SchemaDoc

namespace Members

/-- Inserts a member before the first one with a greater name. -/
def insertOrdered (member : String × Json) : Members → Members
  | [] => [member]
  | other :: rest =>
    if member.1 ≤ other.1 then member :: other :: rest else other :: insertOrdered member rest

/-- The members in the order of their names, by code points. -/
def ordered (members : Members) : Members := members.foldr insertOrdered []

end Members

namespace Json

mutual

/-- The value with the members of every object ordered by name. -/
def canonical : Json → Json
  | object members => object (Members.ordered (canonicalMembers members))
  | array items => array (canonicalItems items)
  | null => null
  | bool b => bool b
  | number n => number n
  | string text => string text

def canonicalItems : List Json → List Json
  | [] => []
  | item :: rest => item.canonical :: canonicalItems rest

def canonicalMembers : List (String × Json) → List (String × Json)
  | [] => []
  | (name, value) :: rest => (name, value.canonical) :: canonicalMembers rest

end

/-- The text by which documents are compared up to the order of members. -/
def key (value : Json) : String := value.canonical.compact

end Json

end SchemaDoc
