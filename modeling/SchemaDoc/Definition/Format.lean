import SchemaDoc.Definition.Basic
import SchemaDoc.Reading.Decode
import SchemaDoc.Reading.Record

/-!
# The JSON form of definition files

A definition is an object whose `kind` names its form. Title, description and examples are read
where they stand; all other members are kept until the kind is known, which may come last, and the
form is read from them afterwards.
-/
namespace SchemaDoc

/-- A map as a record of free-form members, a repeated name with its last value. -/
def Reader.members : Reader Members := fun origin source =>
  (Reader.map Reader.json origin source).map Members.ofList

namespace Constraint

structure Draft where
  kind : Option String
  hints : Option Members

def record : Record Draft Constraint where
  title := "struct ConstraintDef"
  slots :=
    [.required "kind" Draft.kind (fun text draft => { draft with kind := text }) Reader.string,
      .defaulted "hints" Draft.hints (fun hints draft => { draft with hints := hints })
        Reader.members]
  others := .skipped
  blank := ⟨none, none⟩
  finish := fun draft => do return ⟨← needed "kind" draft.kind, draft.hints.getD []⟩

def read : Reader Constraint := record.read

end Constraint

namespace Field

structure Draft (δ : Type) where
  name : Option String
  type : Option δ
  isOptional : Option Bool

variable {δ : Type}

def record (read : Reader δ) : Record (Draft δ) (Field δ) where
  title := "struct FieldDef"
  slots :=
    [.required "name" Draft.name (fun text draft => { draft with name := text }) Reader.string,
      .required "type" Draft.type (fun type draft => { draft with type := type }) read,
      .defaulted "optional" Draft.isOptional (fun b draft => { draft with isOptional := b })
        Reader.bool]
  others := .skipped
  blank := ⟨none, none, none⟩
  finish := fun draft => do
    return ⟨← needed "name" draft.name, ← needed "type" draft.type, draft.isOptional.getD false⟩

end Field

namespace Element

structure Draft (δ : Type) where
  type : Option δ
  isOptional : Option Bool

variable {δ : Type}

def record (read : Reader δ) : Record (Draft δ) (Element δ) where
  title := "struct ElementDef"
  slots :=
    [.required "type" Draft.type (fun type draft => { draft with type := type }) read,
      .defaulted "optional" Draft.isOptional (fun b draft => { draft with isOptional := b })
        Reader.bool]
  others := .skipped
  blank := ⟨none, none⟩
  finish := fun draft => do
    return ⟨← needed "type" draft.type, draft.isOptional.getD false⟩

end Element

namespace Form

/-- The kinds of forms. -/
inductive Kind where
  | string
  | number
  | boolean
  | void
  | unknown
  | hidden
  | literal
  | struct
  | tuple
  | array
  | union
  | refinement
  | ref
deriving DecidableEq, Repr

namespace Kind

def variants : Reader.Variants Kind :=
  [("string", string), ("number", number), ("boolean", boolean), ("void", void),
    ("unknown", unknown), ("opaque", hidden), ("literal", literal), ("struct", struct),
    ("tuple", tuple), ("array", array), ("union", union), ("refinement", refinement), ("ref", ref)]

end Kind

/-- The members of a form while it is read. -/
structure Draft (δ : Type) where
  value : Option Json
  fields : Option (List (Field δ))
  index : Option (Option δ)
  elements : Option (List (Element δ))
  rest : Option (Option δ)
  items : Option δ
  nonEmpty : Option Bool
  members : Option (List δ)
  base : Option δ
  constraints : Option (List Constraint)
  name : Option String

variable {δ : Type}

def Draft.blank : Draft δ :=
  ⟨none, none, none, none, none, none, none, none, none, none, none⟩

/-- The record of a kind that has members of its own. Forms without any read nothing. -/
def recordOf (read : Reader δ) : Kind → Record (Draft δ) (Form δ)
  | .string => bare .string
  | .number => bare .number
  | .boolean => bare .boolean
  | .void => bare .void
  | .unknown => bare .unknown
  | .hidden => bare .hidden
  | .literal =>
    { title := "struct variant Shape::Literal"
      slots := [.required "value" Draft.value (fun v draft => { draft with value := v }) Reader.json]
      others := .skipped
      blank := .blank
      finish := fun draft => do return literal (← needed "value" draft.value) }
  | .struct =>
    { title := "struct variant Shape::Struct"
      slots :=
        [.defaulted "fields" Draft.fields (fun v draft => { draft with fields := v })
            (Reader.list (Field.record read).read),
          .defaulted "index" Draft.index (fun v draft => { draft with index := some v })
            (Reader.nullable read)]
      others := .skipped
      blank := .blank
      finish := fun draft => .ok (struct (draft.fields.getD []) draft.index.join) }
  | .tuple =>
    { title := "struct variant Shape::Tuple"
      slots :=
        [.defaulted "elements" Draft.elements (fun v draft => { draft with elements := v })
            (Reader.list (Element.record read).read),
          .defaulted "rest" Draft.rest (fun v draft => { draft with rest := some v })
            (Reader.nullable read)]
      others := .skipped
      blank := .blank
      finish := fun draft => .ok (tuple (draft.elements.getD []) draft.rest.join) }
  | .array =>
    { title := "struct variant Shape::Array"
      slots :=
        [.required "items" Draft.items (fun v draft => { draft with items := v }) read,
          .defaulted "non_empty" Draft.nonEmpty (fun v draft => { draft with nonEmpty := v })
            Reader.bool]
      others := .skipped
      blank := .blank
      finish := fun draft => do
        return array (← needed "items" draft.items) (draft.nonEmpty.getD false) }
  | .union =>
    { title := "struct variant Shape::Union"
      slots :=
        [.required "members" Draft.members (fun v draft => { draft with members := v })
          (Reader.list read)]
      others := .skipped
      blank := .blank
      finish := fun draft => do return union (← needed "members" draft.members) }
  | .refinement =>
    { title := "struct variant Shape::Refinement"
      slots :=
        [.required "base" Draft.base (fun v draft => { draft with base := v }) read,
          .required "constraints" Draft.constraints
            (fun v draft => { draft with constraints := v }) (Reader.list Constraint.read)]
      others := .skipped
      blank := .blank
      finish := fun draft => do
        return refinement (← needed "base" draft.base) (← needed "constraints" draft.constraints) }
  | .ref =>
    { title := "struct variant Shape::Ref"
      slots := [.required "name" Draft.name (fun v draft => { draft with name := v }) Reader.string]
      others := .skipped
      blank := .blank
      finish := fun draft => do return ref (← needed "name" draft.name) }
where
  bare (form : Form δ) : Record (Draft δ) (Form δ) :=
    { title := "internally tagged enum Shape"
      slots := []
      others := .skipped
      blank := .blank
      finish := fun _ => .ok form }

/-- The kind that kept members name, of which there must be one. -/
def kindOf (kept : Entries) (stop : Nat) : Except ReadError Kind :=
  match kept.valuesOf "kind" with
  | [] => .error (.here (.missingField "kind") stop)
  | [value] => Reader.variant Kind.variants .buffer value
  | value :: _ => do
    let _ ← Reader.variant Kind.variants .buffer value
    .error (.here (.duplicateField "kind") stop)

/-- Reads a form from the members that were kept. -/
def ofKept (read : Reader δ) (kept : Entries) (stop : Nat) : Except ReadError (Form δ) := do
  let kind ← kindOf kept stop
  (recordOf read kind).ofEntries .buffer (kept.without ["kind"])

end Form

namespace Definition

structure NotesDraft where
  title : Option (Option String)
  description : Option (Option String)
  examples : Option (List Json)

/-- The annotations of a definition; its other members are kept. -/
def notesRecord : Record NotesDraft Annotations where
  title := "struct Definition"
  slots :=
    [.defaulted "title" NotesDraft.title (fun text draft => { draft with title := some text })
        (Reader.nullable Reader.string),
      .defaulted "description" NotesDraft.description
        (fun text draft => { draft with description := some text })
        (Reader.nullable Reader.string),
      .defaulted "examples" NotesDraft.examples
        (fun examples draft => { draft with examples := examples }) (Reader.list Reader.json)]
  others := .kept
  blank := ⟨none, none, none⟩
  finish := fun draft =>
    .ok ⟨draft.title.join, draft.description.join, draft.examples.getD []⟩

/-- Reads a definition of which at most the given number of arrays and objects stand inside one
another. It cannot be written as an array. -/
def readWithin : Nat → Reader Definition
  | 0, _, source => .error (source.mismatch notesRecord.title)
  | depth + 1, origin, source =>
    match source with
    | .object start entries => do
      let origin ← origin.enter start
      let (draft, stop) ← notesRecord.readEntries origin notesRecord.blank entries
      let notes ← notesRecord.complete draft stop
      let form ← Reader.buffered stop
        (Form.ofKept (readWithin depth) (entries.without notesRecord.names) stop)
      return mk form notes
    | source => .error (source.mismatch notesRecord.title)

def read : Reader Definition := fun origin source => readWithin source.depth origin source

end Definition

/-- A field with its definition. -/
def Field.read : Reader (Field Definition) := (Field.record Definition.read).read

/-- An element with its definition. -/
def Element.read : Reader (Element Definition) := (Element.record Definition.read).read

namespace DefinitionFile

structure Draft where
  definitions : Option (List (String × Definition))
  root : Option Definition

/-- Sets the definition of a name, keeping the place of one that was there. -/
def put (definitions : List (String × Definition)) (name : String) (definition : Definition) :
    List (String × Definition) :=
  match definitions with
  | [] => [(name, definition)]
  | (other, old) :: rest =>
    if other = name then (name, definition) :: rest else (other, old) :: put rest name definition

def record : Record Draft DefinitionFile where
  title := "struct DefinitionFile"
  slots :=
    [.defaulted "definitions" Draft.definitions
        (fun definitions draft => { draft with definitions := definitions })
        fun origin source => (Reader.map Definition.read origin source).map fun written =>
          written.foldl (fun acc member => put acc member.1 member.2) [],
      .required "root" Draft.root (fun root draft => { draft with root := root }) Definition.read]
  others := .skipped
  blank := ⟨none, none⟩
  finish := fun draft => do return ⟨draft.definitions.getD [], ← needed "root" draft.root⟩

def read : Reader DefinitionFile := record.read

end DefinitionFile

/-- Why a text makes no graph. -/
inductive LoadError where
  /-- The text cannot be read: the path and what is wrong, with its position. -/
  | unreadable (path : List PathStep) (cause : Cause) (position : Position)
  | invalid (error : CompileError)

def LoadError.message : LoadError → String
  | unreadable path cause position =>
    "failed to parse definition at " ++ PathStep.pathText path ++ ": " ++ cause.message ++
      position.message
  | invalid error => error.message

namespace DefinitionFile

/-- Reads a file from text. -/
def ofText (text : String) : Except LoadError DefinitionFile :=
  (Reader.ofText read text).mapError fun error =>
    .unreadable error.path error.cause (.ofOffset text error.offset)

end DefinitionFile

/-- The graph of a file given as text. -/
def Graph.ofText (text : String) : Except LoadError Graph := do
  let file ← DefinitionFile.ofText text
  file.compile.mapError .invalid

end SchemaDoc
