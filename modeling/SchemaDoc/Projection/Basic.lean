import SchemaDoc.Annotation.Published
import SchemaDoc.Projection.Alternatives
import SchemaDoc.Projection.Hints
import SchemaDoc.Projection.Sequence

/-!
# Projection of schemas to documents

A schema is projected by recursion on its tree. The `Trail` of a node holds its location in the
document and the nodes on the way to it; siblings never see each other's nodes, so a shared node is
projected in full wherever it is used. Only references need more: each one that is followed counts
against a cap, and one whose target is on the trail closes a cycle and becomes a stub. So the
recursion is on what remains of the cap, and inside on the tree.
-/
namespace SchemaDoc

/-- The result of projecting a node: the members of its document. -/
abbrev Outcome := Except ProjectionError Members

/-- How a traversal got to a node. -/
structure Trail where
  location : Location
  visited : List Identity

namespace Trail

def start : Trail := ⟨[], []⟩

/-- The trail to a schema further in. -/
def enter (trail : Trail) (step : LocationStep) : Trail :=
  { trail with location := trail.location ++ [step] }

/-- The trail with a node on it. -/
def visit (trail : Trail) (identity : Identity) : Trail :=
  { trail with visited := identity :: trail.visited }

/-- The node is on the trail. A copy that only its maker holds never is. -/
def contains (trail : Trail) (identity : Identity) : Bool :=
  identity != .unshared && trail.visited.contains identity

/-- The trail to a member of a union. A member that stands alone has no place of its own. -/
def alternative (trail : Trail) (alone : Bool) (place : Nat) : Trail :=
  if alone then trail else trail.enter (.alternative place)

end Trail

namespace Projection

/-- The document of a cycle, or of a reference that cannot be resolved. -/
def stub : Members := [("type", .string "object")]

def ofPrimitive : Primitive → Members
  | .string => [("type", .string "string")]
  | .number => [("type", .string "number")]
  | .boolean => [("type", .string "boolean")]
  | .void => []
  | .unknown => []

def ofLiteral (location : Location) (literal : Literal) : Outcome :=
  match literal.toJson? with
  | some value => .ok (Alternatives.enumeration literal.scalarType [value])
  | none => .error (.nonFiniteLiteral location)

/-- The document of a struct from those of its fields and of its other members. -/
def ofStruct {σ : Type} (fields : List (Field σ)) (properties : Members)
    (index : Option Members) : Members :=
  let required := (fields.filter fun field => !field.optional).map fun field =>
    Json.string field.name
  [("type", .string "object"), ("properties", .object (Members.ofList properties)),
    ("required", .array required),
    ("additionalProperties", (index.map Json.object).getD (.bool false))]

/-- Which members of a union count: in a field, where absence has its own mark, not those that
stand for nothing, unless there are no others. -/
def counts (inField : Bool) (members : List Schema) (member : Schema) : Bool :=
  !(inField && member.isVoid && members.any fun other => !other.isVoid)

/-- The document of a union from the literals among its members that count, and the documents of
these if they are needed. -/
def ofUnion (location : Location) (members : List (Option Literal))
    (documents : Unit → Except ProjectionError (List Members)) : Outcome := do
  match ← Alternatives.literalEnum location members with
  | some document => return document
  | none => return Alternatives.join (← documents ())

section

variable (follow : Trail → Reference Schema → Outcome)

mutual

/-- Projects a node, given how references are followed. -/
def node (inField : Bool) (trail : Trail) : Schema → Outcome
  | .node identity shape notes => do
    let document ← shapeOf inField (trail.visit identity) shape
    return notes.overlay document

def shapeOf (inField : Bool) (trail : Trail) : Shape Schema → Outcome
  | .primitive primitive => .ok (ofPrimitive primitive)
  | .literal literal => ofLiteral trail.location literal
  | .struct fields index => do
    let properties ← fieldsOf trail fields
    let others ← optional (trail.enter .additionalProperties) index
    return ofStruct fields properties others
  | .tuple elements rest => do
    let others ← optional (trail.enter (if elements.isEmpty then .items else .additionalItems)) rest
    let documents ← elementsOf trail 0 elements
    return Sequence.document elements documents others
  | .union members =>
    let counted := members.filter (counts inField members)
    ofUnion trail.location (counted.map Schema.literal?) fun _ =>
      membersOf (counts inField members) trail (counted.length == 1) 0 members
  | .refinement base constraints => do
    let document ← node false trail base
    return Constraint.applyAll document constraints
  | .recursive target => follow trail target
  | .hidden => .ok []

def fieldsOf (trail : Trail) : List (Field Schema) → Except ProjectionError Members
  | [] => .ok []
  | ⟨name, schema, _⟩ :: rest => do
    let document ← node true (trail.enter (.property name)) schema
    let others ← fieldsOf trail rest
    return (name, .object document) :: others

def elementsOf (trail : Trail) (place : Nat) :
    List (Element Schema) → Except ProjectionError (List Members)
  | [] => .ok []
  | ⟨schema, _⟩ :: rest => do
    let document ← node false (trail.enter (.item place)) schema
    let others ← elementsOf trail (place + 1) rest
    return document :: others

/-- Projects those members of a union that count. -/
def membersOf (keep : Schema → Bool) (trail : Trail) (alone : Bool) (place : Nat) :
    List Schema → Except ProjectionError (List Members)
  | [] => .ok []
  | member :: rest =>
    if keep member then do
      let document ← node false (trail.alternative alone place) member
      let others ← membersOf keep trail alone (place + 1) rest
      return document :: others
    else membersOf keep trail alone place rest

def optional (trail : Trail) : Option Schema → Except ProjectionError (Option Members)
  | none => .ok none
  | some schema => do return some (← node false trail schema)

end

end

/-- Follows references of which some number may still be followed. -/
def follow (bindings : Bindings) (cap : Nat) : Nat → Trail → Reference Schema → Outcome
  | 0, trail, _ => .error (.depthExceeded cap trail.location)
  | remaining + 1, trail, reference =>
    match reference.resolve bindings with
    | .error _ => .ok stub
    | .ok target =>
      if trail.contains target.identity then .ok stub
      else node (follow bindings cap remaining) false trail target

/-- The document of a schema in which at most `cap` references are followed inside one another. -/
def document (bindings : Bindings) (cap : Nat) (schema : Schema) : Outcome :=
  node (follow bindings cap cap) false .start schema

end Projection

/-- How documents are made. -/
structure ProjectionOptions where
  /-- How many references may be followed inside one another. -/
  maxDepth : Nat
  /-- Whether the document begins by naming the language it is written in. -/
  metaSchema : Bool
deriving DecidableEq, Repr

namespace ProjectionOptions

def standard : ProjectionOptions := ⟨10, false⟩

def metaSchemaUri : String := "http://json-schema.org/draft-07/schema#"

end ProjectionOptions

/-- The document of a graph's root. -/
def Graph.project (options : ProjectionOptions) (graph : Graph) : Outcome := do
  let document ← Projection.document graph.bindings options.maxDepth graph.root
  if options.metaSchema then
    return Members.putAll [("$schema", .string ProjectionOptions.metaSchemaUri)] document
  else return document

end SchemaDoc
