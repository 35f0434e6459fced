import SchemaDoc.Issue.Format
import SchemaDoc.OpenApi.ErrorBody
import SchemaDoc.Proofs.Json.Validity

/-!
# Error bodies are as their schema says

The published schema of error bodies is projected like any other. Its document accepts what every
error body is written as: the members that must be there are written whatever the issues are, and
nothing is written that the document does not list.
-/
namespace SchemaDoc.OpenApi

/-- The fields of a struct. -/
def fieldsOf (schema : Schema) : List (Field Schema) :=
  match schema.shape with
  | .struct fields _ => fields
  | _ => []

def textDocument : Json := .object [("type", .string "string")]

def listDocument (each : Json) : Json := .object [("type", .string "array"), ("items", each)]

def issueDocument : Members :=
  Projection.ofStruct (fieldsOf issueSchema)
    [("field", textDocument), ("message", textDocument), ("path", listDocument textDocument),
      ("value", .object [])] none

def errorBodyDocument : Members :=
  Projection.ofStruct (fieldsOf errorBodySchema)
    [("message", textDocument), ("issues", listDocument (.object issueDocument))] none

theorem project_errorBody : errorBodyGraph.project .standard = .ok errorBodyDocument := rfl

theorem accepts_text (text : String) : textDocument.Accepts (.string text) :=
  Json.accepts_type_iff.mpr rfl

theorem accepts_texts (texts : List String) :
    (listDocument textDocument).Accepts (.array (texts.map Json.string)) := by
  rw [listDocument, Json.accepts_list_iff]
  simp [accepts_text]

/-- Only the message of an issue is always written, and the value may be anything. -/
theorem accepts_issue (issue : Issue) : (Json.object issueDocument).Accepts issue.toJson := by
  rw [issueDocument, Issue.toJson, Projection.accepts_ofStruct_iff (by decide)]
  constructor
  · simp [fieldsOf, issueSchema, Schema.make, Schema.shape, Members.names]
  · intro member mem
    simp only [List.mem_append, List.mem_singleton, Members.mem_ofOption, Option.map_eq_some_iff]
      at mem
    rcases mem with ((⟨value, ⟨field, -, rfl⟩, rfl⟩ | rfl) | path) | ⟨value, -, rfl⟩
    · exact ⟨textDocument, by simp, accepts_text field⟩
    · exact ⟨textDocument, by simp, accepts_text issue.message⟩
    · have written : member = ("path", .array (issue.path.map Json.string)) := by
        split at path
        · cases path
        · exact List.mem_singleton.mp path
      rw [written]
      exact ⟨listDocument textDocument, by simp, accepts_texts issue.path⟩
    · exact ⟨.object [], by simp, Json.accepts_empty value⟩

theorem accepts_errorBody (body : ErrorBody) :
    (Json.object errorBodyDocument).Accepts body.toJson := by
  have issues : (listDocument (.object issueDocument)).Accepts
      (.array (body.issues.map Issue.toJson)) := by
    rw [listDocument, Json.accepts_list_iff]
    simp [accepts_issue]
  rw [errorBodyDocument, ErrorBody.toJson, Projection.accepts_ofStruct_iff (by decide)]
  constructor
  · simp [fieldsOf, errorBodySchema, Schema.make, Schema.shape, Members.names]
  · intro member mem
    simp only [List.mem_cons, List.not_mem_nil, or_false] at mem
    rcases mem with rfl | rfl
    · exact ⟨textDocument, by simp, accepts_text body.message⟩
    · exact ⟨listDocument (.object issueDocument), by simp, issues⟩

/-- The schema of error bodies has a document, and it accepts the body that is written for any
failure tree. -/
theorem errorBody_accepted (tree : IssueTree) :
    ∃ document, errorBodyGraph.project .standard = .ok document ∧
      (Json.object document).Accepts (ErrorBody.ofTree tree).toJson :=
  ⟨errorBodyDocument, project_errorBody, accepts_errorBody (.ofTree tree)⟩

/-- Nothing else may stand in a body. -/
example : ¬ (Json.object errorBodyDocument).Accepts
    (.object [("message", .string ""), ("issues", .array []), ("code", .null)]) := by
  rw [errorBodyDocument, Projection.accepts_ofStruct_iff (by decide)]
  simp

end SchemaDoc.OpenApi
