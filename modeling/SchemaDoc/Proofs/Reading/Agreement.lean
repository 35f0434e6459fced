import SchemaDoc.Proofs.Definition.MemberOrder
import SchemaDoc.Proofs.Issue.Reading

/-!
# Texts are decoded like their values

A text that holds a value without repeated names differs from the value in memory in nothing but
places. So a reader that transfers readings between such sources decodes the same from both.
-/
namespace SchemaDoc

open Reader

theorem DefinitionFile.transfers_sameContent :
    Transfers sameContent DefinitionFile.read DefinitionFile.read := by
  intro room origin origin' source source' file related matching hread
  have arranged : Role.file.Arranged source'.depth room source source' :=
    ⟨.same related.1, related.2, Nat.le_refl _⟩
  exact transfers_read room origin origin' source source' file arranged matching hread

theorem Source.readable_ofJson {value : Json} (valid : value.Unambiguous) :
    (Source.ofJson value).Readable .memory :=
  ⟨value, json_eq_ok_of_same valid rfl nofun⟩

/-- A reader that transfers readings decodes the same from a text and from its value. -/
theorem Reader.Transfers.decodeText_eq_ok_iff {α : Type} {read : Reader α}
    (h : Transfers sameContent read read) {text : String} {value : Json}
    (parses : Reader.ofText json text = .ok value) (distinct : (Source.ofText text).Distinct)
    (a : α) : read.decodeText text = .ok a ↔ read.decodeValue value = .ok a := by
  obtain ⟨same, valid⟩ := Source.same_of_json parses distinct
  have fresh : Origin.freshText ≠ .buffer := nofun
  have memory : Origin.memory ≠ .buffer := nofun
  unfold decodeText decodeValue
  rw [mapError_eq_ok, mapError_eq_ok]
  constructor
  · intro hread
    exact h 127 _ _ _ _ a ⟨same.symm, distinct⟩
      (.direct fresh memory (Source.readable_ofJson valid)) hread
  · intro hread
    exact h 127 _ _ _ _ a ⟨same, same.symm.distinct distinct⟩
      (.direct memory fresh ⟨value, parses⟩) hread

/-- If a text parses as a value and repeats no name in an object, then failure trees, issues, error
bodies and definition files are decoded from the text if and only if they are decoded from the
value, and they are equal then. Text that follows the value makes no difference. -/
theorem decodeText_iff_decodeValue {text : String} {value : Json}
    (parses : Reader.ofText json text = .ok value) (distinct : (Source.ofText text).Distinct) :
    (∀ tree, IssueTree.read.decodeText text = .ok tree ↔
      IssueTree.read.decodeValue value = .ok tree) ∧
    (∀ issue, Issue.read.decodeText text = .ok issue ↔
      Issue.read.decodeValue value = .ok issue) ∧
    (∀ body, ErrorBody.read.decodeText text = .ok body ↔
      ErrorBody.read.decodeValue value = .ok body) ∧
    ∀ file, DefinitionFile.read.decodeText text = .ok file ↔
      DefinitionFile.read.decodeValue value = .ok file :=
  ⟨IssueTree.transfers_read.decodeText_eq_ok_iff parses distinct,
    Issue.transfers_read.decodeText_eq_ok_iff parses distinct,
    ErrorBody.transfers_read.decodeText_eq_ok_iff parses distinct,
    DefinitionFile.transfers_sameContent.decodeText_eq_ok_iff parses distinct⟩

/-- A failure inside a list, with the tag last and the inner tree written without names. -/
def taggedLast : Json :=
  .object [("inner", .array [.string "MissingField", .null]), ("segment", .string "tags"),
    ("_tag", .string "PathWrapper")]

theorem decodeText_taggedLast :
    Reader.ofText json taggedLast.compact = .ok taggedLast ∧
      IssueTree.read.decodeText taggedLast.compact =
        .ok (.within "tags" (.missing (some .null))) := by
  have parses : Reader.ofText json taggedLast.compact = .ok taggedLast := by
    cbv
  have decodes : IssueTree.read.decodeValue taggedLast =
      .ok (.within "tags" (.missing (some .null))) := by
    cbv
  refine ⟨parses, ((decodeText_iff_decodeValue parses ?_).1 _).mpr decodes⟩
  cbv
  decide

end SchemaDoc
