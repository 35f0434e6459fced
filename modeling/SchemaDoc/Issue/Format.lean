import SchemaDoc.Issue.Basic
import SchemaDoc.Reading.Record

/-!
# The JSON form of failures

How failure trees, issues and error bodies are written and read. A tree is an object whose `_tag`
names its kind, or an array that begins with the tag. A value that is absent is not written, which
keeps it apart from a `null` that is there; nor are an absent field and an empty path.
-/
namespace SchemaDoc

namespace IssueTree

/-- The kinds of trees. -/
inductive Tag where
  | typeMismatch
  | missing
  | within
  | composite
  | refinement
deriving DecidableEq, Repr

namespace Tag

def variants : Reader.Variants Tag :=
  [("TypeMismatch", typeMismatch), ("MissingField", missing), ("PathWrapper", within),
    ("Composite", composite), ("RefinementFailure", refinement)]

def name : Tag → String
  | typeMismatch => "TypeMismatch"
  | missing => "MissingField"
  | within => "PathWrapper"
  | composite => "Composite"
  | refinement => "RefinementFailure"

end Tag

/-- An object with a tag. -/
def tagged (tag : Tag) (members : Members) : Json :=
  .object (("_tag", .string tag.name) :: members)

mutual

def toJson : IssueTree → Json
  | typeMismatch expectation actual =>
    tagged .typeMismatch (("expectedDescription", .string expectation) ::
      Members.ofOption "actualValue" actual)
  | missing actual => tagged .missing (Members.ofOption "actualValue" actual)
  | within segment inner => tagged .within [("segment", .string segment), ("inner", inner.toJson)]
  | composite children => tagged .composite [("children", .array (childrenToJson children))]
  | refinement expectation actual =>
    tagged .refinement (("expectedDescription", .string expectation) ::
      Members.ofOption "actualValue" actual)

def childrenToJson : List IssueTree → List Json
  | [] => []
  | child :: rest => child.toJson :: childrenToJson rest

end

/-- The fields of a tree while it is read. -/
structure Draft where
  expectation : Option String
  actual : Option Json
  segment : Option String
  inner : Option IssueTree
  children : Option (List IssueTree)

namespace Draft

def blank : Draft := ⟨none, none, none, none, none⟩

def expectationSlot : Slot Draft :=
  .defaulted "expectedDescription" expectation (fun text draft => { draft with expectation := text })
    Reader.string

def actualSlot : Slot Draft :=
  .defaulted "actualValue" actual (fun value draft => { draft with actual := value }) Reader.json

def segmentSlot : Slot Draft :=
  .required "segment" segment (fun text draft => { draft with segment := text }) Reader.string

def innerSlot (read : Reader IssueTree) : Slot Draft :=
  .required "inner" inner (fun tree draft => { draft with inner := tree }) read

def childrenSlot (read : Reader IssueTree) : Slot Draft :=
  .required "children" children (fun trees draft => { draft with children := trees })
    (Reader.list read)

end Draft

/-- The record that follows a tag. -/
def recordOf (read : Reader IssueTree) : Tag → Record Draft IssueTree
  | .typeMismatch =>
    { title := "struct variant IssueNode::TypeMismatch"
      slots := [Draft.expectationSlot, Draft.actualSlot]
      others := .skipped
      blank := .blank
      finish := fun draft => .ok (typeMismatch (draft.expectation.getD "") draft.actual) }
  | .missing =>
    { title := "struct variant IssueNode::MissingField"
      slots := [Draft.actualSlot]
      others := .skipped
      blank := .blank
      finish := fun draft => .ok (missing draft.actual) }
  | .within =>
    { title := "struct variant IssueNode::PathWrapper"
      slots := [Draft.segmentSlot, Draft.innerSlot read]
      others := .skipped
      blank := .blank
      finish := fun draft => do
        return within (← needed "segment" draft.segment) (← needed "inner" draft.inner) }
  | .composite =>
    { title := "struct variant IssueNode::Composite"
      slots := [Draft.childrenSlot read]
      others := .skipped
      blank := .blank
      finish := fun draft => do return composite (← needed "children" draft.children) }
  | .refinement =>
    { title := "struct variant IssueNode::RefinementFailure"
      slots := [Draft.expectationSlot, Draft.actualSlot]
      others := .skipped
      blank := .blank
      finish := fun draft => .ok (refinement (draft.expectation.getD "") draft.actual) }

/-- The tag of an object, whose other members are kept until it is known. -/
def tagRecord : Record (Option Tag) Tag where
  title := "internally tagged enum IssueNode"
  slots := [.required "_tag" id (fun tag _ => some tag) (Reader.variant Tag.variants)]
  others := .kept
  blank := none
  finish := needed "_tag"

/-- Reads a tree of which at most the given number of arrays and objects stand inside one
another. -/
def readWithin : Nat → Reader IssueTree
  | 0, _, source => .error (source.mismatch tagRecord.title)
  | depth + 1, origin, source =>
    match source with
    | .object start entries => do
      let origin ← origin.enter start
      let (draft, stop) ← tagRecord.readEntries origin tagRecord.blank entries
      let tag ← tagRecord.complete draft stop
      Reader.buffered stop
        ((recordOf (readWithin depth) tag).ofEntries .buffer (entries.without ["_tag"]))
    | .array start items => do
      let origin ← origin.enter start
      match items with
      | .item first rest =>
        let tag ← (PathStep.index 0).into (Reader.variant Tag.variants origin first)
        let stop ← Reader.keepItems origin 1 rest
        Reader.buffered stop ((recordOf (readWithin depth) tag).ofItems .buffer rest)
      | other =>
        let stop ← other.ended
        .error (.here (.missingField "_tag") stop)
    | source => .error (source.mismatch tagRecord.title)

def read : Reader IssueTree := fun origin source => readWithin source.depth origin source

end IssueTree

namespace Issue

def toJson (issue : Issue) : Json :=
  .object (Members.ofOption "field" (issue.field.map Json.string) ++
    [("message", .string issue.message)] ++
    (if issue.path.isEmpty then [] else [("path", .array (issue.path.map Json.string))]) ++
    Members.ofOption "value" issue.value)

structure Draft where
  field : Option (Option String)
  message : Option String
  path : Option (List String)
  value : Option Json

def record : Record Draft Issue where
  title := "struct ValidationIssue"
  slots :=
    [.defaulted "field" Draft.field (fun text draft => { draft with field := some text })
        (Reader.nullable Reader.string),
      .required "message" Draft.message (fun text draft => { draft with message := text })
        Reader.string,
      .defaulted "path" Draft.path (fun path draft => { draft with path := path })
        (Reader.list Reader.string),
      .defaulted "value" Draft.value (fun value draft => { draft with value := value }) Reader.json]
  others := .skipped
  blank := ⟨none, none, none, none⟩
  finish := fun draft => do
    return ⟨draft.field.join, ← needed "message" draft.message, draft.path.getD [], draft.value⟩

def read : Reader Issue := record.read

end Issue

namespace ErrorBody

def toJson (body : ErrorBody) : Json :=
  .object [("message", .string body.message), ("issues", .array (body.issues.map Issue.toJson))]

structure Draft where
  message : Option String
  issues : Option (List Issue)

def record : Record Draft ErrorBody where
  title := "struct ErrorBody"
  slots :=
    [.required "message" Draft.message (fun text draft => { draft with message := text })
        Reader.string,
      .required "issues" Draft.issues (fun issues draft => { draft with issues := issues })
        (Reader.list Issue.read)]
  others := .skipped
  blank := ⟨none, none⟩
  finish := fun draft => do
    return ⟨← needed "message" draft.message, ← needed "issues" draft.issues⟩

def read : Reader ErrorBody := record.read

end ErrorBody

end SchemaDoc
