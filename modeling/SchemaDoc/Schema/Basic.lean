import SchemaDoc.Schema.Constraint

/-!
# Schemas

A `Schema` is a tree of nodes. Each node has an identity, a shape and annotations; a node that is
used in several places is the same node there, with the same identity. Trees are finite: a schema
gets back to itself only through a `Reference`, which is resolved in `Bindings` when it is
followed. A `Graph` is a schema with the bindings its references are resolved in.
-/
namespace SchemaDoc

/-- Where a node was made, which tells it apart from all nodes made elsewhere. -/
inductive Identity where
  /-- At the top of a named definition. -/
  | definition (name : String)
  /-- At the root of a file. -/
  | root
  /-- By a numbered step. -/
  | step (number : Nat)
  /-- As a numbered part of what was made somewhere. -/
  | part (whole : Identity) (place : Nat)
  /-- As a copy that only its maker holds, so that it cannot be met again. -/
  | unshared
deriving DecidableEq, Repr

/-- Human-facing metadata of a node. -/
structure Annotations where
  title : Option String
  description : Option String
  examples : List Json

namespace Annotations

def none : Annotations := ⟨.none, .none, []⟩

def isEmpty (notes : Annotations) : Bool :=
  notes.title.isNone && notes.description.isNone && notes.examples.isEmpty

end Annotations

inductive Primitive where
  | string
  | number
  | boolean
  /-- The absent alternative of a field. -/
  | void
  | unknown
deriving DecidableEq, Repr

inductive Literal where
  | string (value : String)
  | number (value : Binary64)
  | boolean (value : Bool)
  | null
deriving DecidableEq

namespace Literal

/-- The name of the literal's scalar type. -/
def scalarType : Literal → String
  | string _ => "string"
  | number _ => "number"
  | boolean _ => "boolean"
  | null => "null"

/-- The JSON value of a literal; a number that is not finite has none. -/
def toJson? : Literal → Option Json
  | string text => some (.string text)
  | number x => x.finite?.map fun x => .number (.ofDouble x)
  | boolean b => some (.bool b)
  | null => some .null

end Literal

structure Field (σ : Type) where
  name : String
  node : σ
  optional : Bool

structure Element (σ : Type) where
  node : σ
  optional : Bool

/-- How a reference finds its target. -/
inductive Reference (σ : Type) where
  /-- The node bound to a slot. -/
  | slot (name : String)
  /-- A new copy of the node bound to a slot, at each resolution. -/
  | copyOf (name : String)
  | node (target : σ)
  | failing (message : String)

inductive Shape (σ : Type) where
  | primitive (primitive : Primitive)
  | literal (literal : Literal)
  /-- Named fields, and the schema of all other members if there may be others. -/
  | struct (fields : List (Field σ)) (index : Option σ)
  /-- Leading elements, and the schema of all further ones if there may be any. -/
  | tuple (elements : List (Element σ)) (rest : Option σ)
  | union (members : List σ)
  | refinement (base : σ) (constraints : List Constraint)
  | recursive (target : Reference σ)
  /-- A shape that is not disclosed. -/
  | hidden

inductive Schema where
  | node (identity : Identity) (shape : Shape Schema) (notes : Annotations)

/-- Why a schema cannot be built. -/
inductive SchemaError where
  | duplicateField (name : String)
  | emptyUnion
deriving DecidableEq, Repr

def SchemaError.message : SchemaError → String
  | duplicateField name => s!"duplicate struct field '{name}'"
  | emptyUnion => "a union needs at least one member"

/-- Why a reference has no target. -/
inductive ResolveError where
  | unset (name : String)
  | message (text : String)
deriving DecidableEq, Repr

def ResolveError.text : ResolveError → String
  | unset name => s!"recursive reference '{name}' was never bound"
  | message text => text

/-- The nodes bound to slots. -/
abbrev Bindings := List (String × Schema)

namespace Schema

def identity : Schema → Identity
  | node identity _ _ => identity

def shape : Schema → Shape Schema
  | node _ shape _ => shape

def notes : Schema → Annotations
  | node _ _ notes => notes

/-- The same shape and annotations as another node. -/
def copy (identity : Identity) : Schema → Schema
  | node _ shape notes => node identity shape notes

def isVoid (schema : Schema) : Bool :=
  match schema.shape with
  | .primitive .void => true
  | _ => false

def literal? (schema : Schema) : Option Literal :=
  match schema.shape with
  | .literal literal => some literal
  | _ => none

/-! ## Making nodes -/

/-- A node without annotations. -/
def make (identity : Identity) (shape : Shape Schema) : Schema := node identity shape .none

/-- The first name that came before. -/
def firstRepeated (seen : List String) : List String → Option String
  | [] => none
  | name :: rest => if name ∈ seen then some name else firstRepeated (name :: seen) rest

/-- A struct, whose fields must have different names. -/
def struct? (identity : Identity) (fields : List (Field Schema)) (index : Option Schema) :
    Except SchemaError Schema :=
  match firstRepeated [] (fields.map Field.name) with
  | some name => .error (.duplicateField name)
  | none => .ok (make identity (.struct fields index))

/-- A union, which must have a member. -/
def union? (identity : Identity) (members : List Schema) : Except SchemaError Schema :=
  if members.isEmpty then .error .emptyUnion else .ok (make identity (.union members))

def array (identity : Identity) (item : Schema) : Schema := make identity (.tuple [] (some item))

def nonEmptyArray (identity : Identity) (item : Schema) : Schema :=
  make identity (.tuple [⟨item, false⟩] (some item))

/-- The schema, or nothing at all. -/
def optionalOf (identity : Identity) (inner : Schema) : Schema :=
  make identity (.union [inner, make (identity.part 1) (.primitive .void)])

def refine (identity : Identity) (base : Schema) (constraints : List Constraint) : Schema :=
  make identity (.refinement base constraints)

/-- A new node of the same shape with the given annotations. -/
def annotate (identity : Identity) (notes : Annotations) (schema : Schema) : Schema :=
  node identity schema.shape notes

def titled (identity : Identity) (title : String) (schema : Schema) : Schema :=
  schema.annotate identity { schema.notes with title := some title }

def described (identity : Identity) (description : String) (schema : Schema) : Schema :=
  schema.annotate identity { schema.notes with description := some description }

def withExamples (identity : Identity) (examples : List Json) (schema : Schema) : Schema :=
  schema.annotate identity { schema.notes with examples := examples }

end Schema

namespace Bindings

/-- Binds a slot that is not bound yet. -/
def bind? (bindings : Bindings) (slot : String) (schema : Schema) : Option Bindings :=
  if (bindings.lookup slot).isSome then none else some (bindings ++ [(slot, schema)])

end Bindings

/-- The target of a reference. -/
def Reference.resolve (bindings : Bindings) : Reference Schema → Except ResolveError Schema
  | slot name =>
    match bindings.lookup name with
    | some target => .ok target
    | none => .error (.unset name)
  | copyOf name =>
    match bindings.lookup name with
    | some target => .ok (target.copy .unshared)
    | none => .error (.unset name)
  | node target => .ok target
  | failing message => .error (.message message)

/-- A schema and what its references refer to. -/
structure Graph where
  bindings : Bindings
  root : Schema

end SchemaDoc
