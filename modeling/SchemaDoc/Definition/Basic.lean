import SchemaDoc.Json.Printer
import SchemaDoc.Schema.Basic

/-!
# Definition files

A definition describes a schema. A file has named definitions and a root; definitions refer to one
another, and to themselves, by name and in any order. `DefinitionFile.compile` makes the nodes:
every place in the file has its own, and a name stands for the node of its definition.
-/
namespace SchemaDoc

/-- The forms a definition may have, over the definitions of its parts. -/
inductive Form (δ : Type) where
  | string
  | number
  | boolean
  | void
  | unknown
  | hidden
  | literal (value : Json)
  | struct (fields : List (Field δ)) (index : Option δ)
  | tuple (elements : List (Element δ)) (rest : Option δ)
  | array (items : δ) (nonEmpty : Bool)
  | union (members : List δ)
  | refinement (base : δ) (constraints : List Constraint)
  | ref (name : String)

inductive Definition where
  | mk (form : Form Definition) (notes : Annotations)

/-- Named definitions in order, and the root. -/
structure DefinitionFile where
  definitions : List (String × Definition)
  root : Definition

/-- Why a definition makes no schema. -/
inductive CompileError where
  | unknownReference (name : String)
  | literal (reason : String)
  | schema (error : SchemaError)
deriving DecidableEq, Repr

def CompileError.message : CompileError → String
  | unknownReference name => s!"reference to unknown definition '{name}'"
  | literal reason => "invalid literal: " ++ reason
  | schema error => error.message

namespace Definition

def form : Definition → Form Definition
  | mk form _ => form

def notes : Definition → Annotations
  | mk _ notes => notes

/-- The literal of a scalar value. -/
def literalOf : Json → Except CompileError Literal
  | .string text => .ok (.string text)
  | .bool b => .ok (.boolean b)
  | .null => .ok .null
  | .number n => .ok (.number n.toBinary64)
  | other => .error (.literal (other.compact ++ " is not a scalar"))

section

variable (names : List String)

mutual

/-- The node of a definition that stands at a place, where the given names are defined. -/
def compile (place : Identity) : Definition → Except CompileError Schema
  | mk form notes => do
    let shape ← compileForm place form
    return .node place shape notes

/-- Compiles the parts of a form, each at its own place, before the form itself is checked. -/
def compileForm (place : Identity) : Form Definition → Except CompileError (Shape Schema)
  | .string => .ok (.primitive .string)
  | .number => .ok (.primitive .number)
  | .boolean => .ok (.primitive .boolean)
  | .void => .ok (.primitive .void)
  | .unknown => .ok (.primitive .unknown)
  | .hidden => .ok .hidden
  | .literal value => (literalOf value).map Shape.literal
  | .struct fields index => do
    let fields' ← compileFields place 0 fields
    let index' ← compileOption (place.part fields.length) index
    match Schema.firstRepeated [] (fields'.map Field.name) with
    | some name => .error (.schema (.duplicateField name))
    | none => .ok (.struct fields' index')
  | .tuple elements rest => do
    let elements' ← compileElements place 0 elements
    let rest' ← compileOption (place.part elements.length) rest
    return .tuple elements' rest'
  | .array items nonEmpty => do
    let item ← compile (place.part 0) items
    return .tuple (if nonEmpty then [⟨item, false⟩] else []) (some item)
  | .union members => do
    let members' ← compileMembers place 0 members
    if members'.isEmpty then .error (.schema .emptyUnion) else .ok (.union members')
  | .refinement base constraints => do
    let base' ← compile (place.part 0) base
    return .refinement base' constraints
  | .ref name =>
    if name ∈ names then .ok (.recursive (.slot name)) else .error (.unknownReference name)

def compileFields (place : Identity) (i : Nat) :
    List (Field Definition) → Except CompileError (List (Field Schema))
  | [] => .ok []
  | ⟨name, definition, isOptional⟩ :: rest => do
    let schema ← compile (place.part i) definition
    let others ← compileFields place (i + 1) rest
    return ⟨name, schema, isOptional⟩ :: others

def compileElements (place : Identity) (i : Nat) :
    List (Element Definition) → Except CompileError (List (Element Schema))
  | [] => .ok []
  | ⟨definition, isOptional⟩ :: rest => do
    let schema ← compile (place.part i) definition
    let others ← compileElements place (i + 1) rest
    return ⟨schema, isOptional⟩ :: others

def compileMembers (place : Identity) (i : Nat) :
    List Definition → Except CompileError (List Schema)
  | [] => .ok []
  | definition :: rest => do
    let schema ← compile (place.part i) definition
    let others ← compileMembers place (i + 1) rest
    return schema :: others

def compileOption (place : Identity) : Option Definition → Except CompileError (Option Schema)
  | none => .ok none
  | some definition => do return some (← compile place definition)

end

end

/-- A definition on its own, where no names are defined. -/
def compileAlone (definition : Definition) : Except CompileError Schema :=
  definition.compile [] .root

end Definition

namespace DefinitionFile

def names (file : DefinitionFile) : List String := file.definitions.map Prod.fst

/-- The nodes of all definitions, in order. -/
def compileAll (names : List String) :
    List (String × Definition) → Except CompileError Bindings
  | [] => .ok []
  | (name, definition) :: rest => do
    let schema ← definition.compile names (.definition name)
    let others ← compileAll names rest
    return (name, schema) :: others

/-- The graph of a file: its definitions first, then the root. -/
def compile (file : DefinitionFile) : Except CompileError Graph := do
  let bindings ← compileAll file.names file.definitions
  let root ← file.root.compile file.names .root
  return ⟨bindings, root⟩

end DefinitionFile

end SchemaDoc
