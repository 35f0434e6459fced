import SchemaDoc.Json.Canonical
import SchemaDoc.Schema.Basic

/-!
# Documents of tuples

Lists have no shape of their own. A tuple of no elements with a rest is a plain list; one required
element with the same document as the rest is a list that is not empty; all else is a tuple.
-/
namespace SchemaDoc

namespace Sequence

variable {σ : Type}

/-- The number of elements that must be there. -/
def requiredCount (elements : List (Element σ)) : Nat :=
  (elements.filter fun element => !element.optional).length

/-- The single element, which must be there, says the same as the rest. -/
def isNonEmptyList (elements : List (Element σ)) (documents : List Members)
    (rest : Option Members) : Bool :=
  match elements, documents, rest with
  | [head], [document], some rest =>
    !head.optional && (Json.object document).key == (Json.object rest).key
  | _, _, _ => false

/-- The documents of the elements: the only one itself, or their list. -/
def itemsOf : List Members → Json
  | [only] => .object only
  | documents => .array (documents.map Json.object)

/-- The document of a tuple from those of its elements and its rest. -/
def document (elements : List (Element σ)) (documents : List Members)
    (rest : Option Members) : Members :=
  match elements, rest with
  | [], some rest => [("type", .string "array"), ("items", .object rest)]
  | elements, rest =>
    if isNonEmptyList elements documents rest then
      [("type", .string "array"), ("items", itemsOf documents), ("minItems", .ofNat 1)]
    else
      let positional : Members :=
        [("type", .string "array"), ("items", itemsOf documents),
          ("minItems", .ofNat (requiredCount elements))]
      match rest with
      | some rest => positional ++ [("additionalItems", .object rest)]
      | none => positional ++ [("maxItems", .ofNat documents.length)]

end Sequence

end SchemaDoc
