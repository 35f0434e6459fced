import SchemaDoc.Proofs.Issue.Leaves
import SchemaDoc.Proofs.Reading.Agreement
import SchemaDoc.Proofs.Source.Printed

/-!
# Failures survive being written and read

The JSON form of a failure tree or an error body is read as the same tree or body. What is not
written, such as an absent value or an empty path, is what a draft without it is finished to, and a
`null` is written. The inner parts of a tree are read from a buffer, so what is proved by induction
is about values in memory and values in a buffer alike. Printed text is read like its value.
-/
namespace SchemaDoc

open Reader

/-! ## Reading from memory -/

/-- The members of an object in memory, as sources. -/
def Members.sources (members : Members) : List (String × Source) :=
  members.map fun member => (member.1, .ofJson member.2)

/-- What is read is a value, or what was kept of one, rather than a text. -/
def Origin.Direct (origin : Origin) : Prop := ∀ room, origin ≠ .text room

theorem Origin.direct_memory : Origin.memory.Direct := nofun

theorem Origin.direct_buffer : Origin.buffer.Direct := nofun

section

variable {α δ : Type} {origin : Origin}

/-- There is no limit to the depth outside of texts. -/
theorem Origin.Direct.enter (direct : origin.Direct) (start : Nat) :
    origin.enter start = .ok origin := by
  cases origin with
  | text room => exact absurd rfl (direct room)
  | memory => rfl
  | buffer => rfl

/-- A value in memory or in a buffer is read as the value. -/
theorem Reader.json_ofJson (direct : origin.Direct) {value : Json} (valid : value.Unambiguous) :
    json origin (.ofJson value) = .ok value :=
  Source.json_eq_ok_of_same valid rfl fun room h => absurd h (direct room)

/-- A list is read from the JSON forms of its items if each item is read from its own. -/
theorem Reader.list_ofJson {read : Reader α} (direct : origin.Direct) {values : List α}
    {toJson : α → Json}
    (each : ∀ a ∈ values, read origin (.ofJson (toJson a)) = .ok a) :
    list read origin (.ofJson (.array (values.map toJson))) = .ok values := by
  refine bind_eq_ok.mpr ⟨origin, direct.enter 0, items_eq_ok_iff.mpr
    ⟨_, Items.lists_ofList _, ?_⟩⟩
  rw [List.forall₂_map_left_iff, List.forall₂_map_left_iff, List.forall₂_same]
  exact each

variable {record : Record δ α} {draft next : δ}

theorem Record.read_ofJson (direct : origin.Direct) {members : Members} {a : α}
    (all : record.TakesAll origin record.blank members.sources draft)
    (finished : record.finish draft = .ok a) :
    record.read origin (.ofJson (.object members)) = .ok a := by
  refine bind_eq_ok.mpr ⟨origin, direct.enter 0, ?_⟩
  exact ofEntries_eq_ok_iff.mpr ⟨_, draft, Entries.lists_ofList members, all, finished⟩

end

/-- What holds of texts and passes to arrays and to objects that repeat no name. -/
structure Json.Hereditary (P : Json → Prop) : Prop where
  string (text : String) : P (.string text)
  array {items : List Json} : (∀ item ∈ items, P item) → P (.array items)
  object {members : Members} : members.names.Nodup → (∀ member ∈ members, P member.2) →
    P (.object members)

theorem Json.hereditary_unambiguous : Hereditary Unambiguous := ⟨.string, .array, .object⟩

theorem Json.hereditary_integral : Hereditary Integral := ⟨.string, .array, fun _ => .object⟩

/-! ## Trees -/

namespace IssueTree

/-- The values that the leaves of a tree tell. -/
def values (tree : IssueTree) : List Json := tree.leaves.filterMap fun place => place.leaf.actual

variable {tree : IssueTree} {value : Json} {P : Json → Prop}

theorem mem_values_iff :
    value ∈ tree.values ↔ ∃ place, LeafAt tree place ∧ place.leaf.actual = some value := by
  simp only [values, List.mem_filterMap, mem_leaves_iff]

theorem values_of_leaf? {leaf : Leaf} (h : tree.leaf? = some leaf)
    (all : ∀ value ∈ tree.values, P value) : ∀ value, leaf.actual = some value → P value :=
  fun value actual => all value (mem_values_iff.mpr ⟨⟨[], [], leaf⟩, .leaf h, actual⟩)

theorem values_of_within {segment : String} (all : ∀ value ∈ (within segment tree).values, P value) :
    ∀ value ∈ tree.values, P value := by
  intro value mem
  obtain ⟨place, found, actual⟩ := mem_values_iff.mp mem
  exact all value (mem_values_iff.mpr ⟨_, .within found, actual⟩)

theorem values_of_composite {children : List IssueTree}
    (all : ∀ value ∈ (composite children).values, P value) {child : IssueTree}
    (mem : child ∈ children) : ∀ value ∈ child.values, P value := by
  intro value hvalue
  obtain ⟨place, found, actual⟩ := mem_values_iff.mp hvalue
  obtain ⟨i, hi⟩ := List.getElem?_of_mem mem
  exact all value (mem_values_iff.mpr ⟨_, .composite hi found, actual⟩)

theorem childrenToJson_eq_map (children : List IssueTree) :
    childrenToJson children = children.map toJson := by
  induction children with
  | nil => rfl
  | cons child rest ih => rw [childrenToJson, ih, List.map_cons]

/-- What holds of the values of a tree holds of the JSON form of the tree. -/
theorem hereditary_toJson (h : Json.Hereditary P) (tree : IssueTree)
    (all : ∀ value ∈ tree.values, P value) : P tree.toJson := by
  induction tree using induction_on_inner with
  | leaf tree leaf hleaf =>
    have told : ∀ member ∈ Members.ofOption "actualValue" leaf.actual, P member.2 :=
      Members.forall_mem_ofOption (values_of_leaf? hleaf all)
    cases tree with
    | within => cases hleaf
    | composite => cases hleaf
    | missing actual =>
      cases hleaf
      refine h.object ?_ (List.forall_mem_cons.mpr ⟨h.string _, told⟩)
      cases actual <;> simp [Members.names, Members.ofOption]
    | typeMismatch expectation actual | refinement expectation actual =>
      cases hleaf
      refine h.object ?_ (List.forall_mem_cons.mpr ⟨h.string _, List.forall_mem_cons.mpr
        ⟨h.string _, told⟩⟩)
      cases actual <;> simp [Members.names, Members.ofOption]
  | within segment inner ih =>
    have inside : P inner.toJson := ih (values_of_within all)
    refine h.object (by simp [Members.names]) (List.forall_mem_cons.mpr ⟨h.string _, ?_⟩)
    exact List.forall_mem_cons.mpr ⟨h.string _, List.forall_mem_singleton.mpr inside⟩
  | composite children ih =>
    have inside : ∀ child ∈ children, P child.toJson :=
      fun child mem => ih child mem (values_of_composite all mem)
    rw [toJson, tagged, childrenToJson_eq_map]
    refine h.object (by simp [Members.names]) (List.forall_mem_cons.mpr ⟨h.string _, ?_⟩)
    exact List.forall_mem_singleton.mpr (h.array (List.forall_mem_map.mpr inside))

/-- A tagged object is read once its other members are: the tag is found first. -/
theorem readWithin_tagged {depth : Nat} {origin : Origin} (direct : origin.Direct)
    {tag : Tag} {members : Members} (fresh : "_tag" ∉ members.names) {draft : Draft}
    (all : (recordOf (readWithin depth) tag).TakesAll .buffer .blank members.sources draft)
    (finished : (recordOf (readWithin depth) tag).finish draft = .ok tree) :
    readWithin (depth + 1) origin (.ofJson (tagged tag members)) = .ok tree := by
  have lists := Entries.lists_ofList (("_tag", .string tag.name) :: members)
  have apart : ∀ member ∈ members.sources, member.1 ∉ tagRecord.names := by
    intro member mem tagged
    obtain ⟨original, hmem, rfl⟩ := List.mem_map.mp mem
    exact fresh (List.mem_map.mpr ⟨original, hmem, List.mem_singleton.mp tagged⟩)
  have named : variant Tag.variants origin (.ofJson (.string tag.name)) = .ok tag := by
    cases tag <;> rfl
  have first : tagRecord.TakesAll origin none
      (Members.sources [("_tag", .string tag.name)]) (some tag) :=
    .cons (.field rfl rfl (map_eq_ok.mpr ⟨tag, named, rfl⟩)) (.nil _)
  have ignored : ∀ member ∈ members.sources,
      tagRecord.slot? member.1 = none ∧ tagRecord.other origin member.2 = .ok () :=
    fun member mem => ⟨Record.slot?_eq_none_iff.mpr (apart member mem),
      tagRecord.other_of_readable fun room text => absurd text (direct room)⟩
  have others : (Members.sources (("_tag", .string tag.name) :: members)).filter
      (·.1 ∉ ["_tag"]) = members.sources :=
    List.filter_eq_self.mpr fun member mem => decide_eq_true (apart member mem)
  have lists' := others ▸ lists.without ["_tag"]
  refine readWithin_object_eq_ok_iff.mpr ⟨origin, tag, direct.enter 0, ?_, ?_⟩
  · exact Record.ofEntries_eq_ok_iff.mpr ⟨_, some tag, lists,
      first.append_others (by decide) ignored, rfl⟩
  · refine Record.ofEntries_eq_ok_iff.mpr ⟨_, draft, lists', ?_, finished⟩
    cases tag <;> exact all

theorem takesAll_actual {read : Reader IssueTree} {tag : Tag}
    (known : (recordOf read tag).slot? "actualValue" = some Draft.actualSlot)
    (expectation : Option String) {actual : Option Json}
    (valid : ∀ value, actual = some value → value.Unambiguous) :
    (recordOf read tag).TakesAll .buffer ⟨expectation, none, none, none, none⟩
      (Members.ofOption "actualValue" actual).sources ⟨expectation, actual, none, none, none⟩ := by
  cases actual with
  | none => exact .nil _
  | some value =>
    have told := json_ofJson Origin.direct_buffer (valid value rfl)
    exact .cons (.field known rfl (map_eq_ok.mpr ⟨value, told, rfl⟩)) (.nil _)

theorem depth_le_of_tagged {tag : Tag} {members : Members} {depth : Nat}
    (deep : (Source.ofJson (tagged tag members)).depth ≤ depth + 1) :
    ∀ member ∈ members, (Source.ofJson member.2).depth ≤ depth := by
  intro member mem
  have within := (Entries.lists_ofList (("_tag", .string tag.name) :: members)).depth_le
    (member.1, .ofJson member.2) (List.mem_map_of_mem (List.mem_cons_of_mem _ mem))
  exact Nat.le_trans within (Nat.le_of_succ_le_succ deep)

/-- The JSON form of a tree is read as the tree, in as many steps as it is deep. -/
theorem readWithin_toJson (tree : IssueTree) (valid : ∀ value ∈ tree.values, value.Unambiguous)
    {depth : Nat} (deep : (Source.ofJson tree.toJson).depth ≤ depth) {origin : Origin}
    (direct : origin.Direct) : readWithin depth origin (.ofJson tree.toJson) = .ok tree := by
  -- The reader counts the depth down, and every inner tree is less deep by one at least.
  induction depth generalizing tree origin with
  | zero => cases tree <;> cases deep
  | succ depth ih =>
    cases tree with
    | missing actual =>
      have told := values_of_leaf? rfl valid
      exact readWithin_tagged direct (by cases actual <;> simp [Members.names, Members.ofOption])
        (takesAll_actual rfl none told) rfl
    | typeMismatch expectation actual | refinement expectation actual =>
      have told := values_of_leaf? rfl valid
      exact readWithin_tagged direct (by cases actual <;> simp [Members.names, Members.ofOption])
        (.cons (.field rfl rfl rfl) (takesAll_actual rfl expectation told)) rfl
    | within segment inner =>
      have shallow := depth_le_of_tagged deep ("inner", inner.toJson) (by simp)
      have inside := ih inner (values_of_within valid) shallow Origin.direct_buffer
      exact readWithin_tagged direct (by simp [Members.names]) (.cons (.field rfl rfl rfl)
        (.cons (.field rfl rfl (map_eq_ok.mpr ⟨inner, inside, rfl⟩)) (.nil _))) rfl
    | composite children =>
      rw [toJson, childrenToJson_eq_map] at deep ⊢
      have shallow := depth_le_of_tagged deep _ List.mem_cons_self
      have each : ∀ child ∈ children,
          readWithin depth .buffer (.ofJson child.toJson) = .ok child := by
        intro child mem
        have less := (Items.lists_ofList (children.map toJson)).depth_le _
          (List.mem_map_of_mem (List.mem_map_of_mem mem))
        exact ih child (values_of_composite valid mem)
          (Nat.le_trans (Nat.le_succ_of_le less) shallow) Origin.direct_buffer
      have inside : list (readWithin depth) .buffer (.ofJson (.array (children.map toJson))) =
          .ok children := list_ofJson Origin.direct_buffer each
      exact readWithin_tagged direct (by simp [Members.names]) (.cons (.field rfl rfl
        (map_eq_ok.mpr ⟨children, inside, rfl⟩)) (.nil _)) rfl

end IssueTree

/-! ## Issues and error bodies -/

variable {origin : Origin}

namespace Issue

/-- The JSON form of an issue is read as the issue. -/
theorem read_toJson (direct : origin.Direct) {issue : Issue}
    (valid : ∀ value, issue.value = some value → value.Unambiguous) :
    Issue.read origin (.ofJson issue.toJson) = .ok issue := by
  obtain ⟨field, message, path, value⟩ := issue
  let addressed : Draft := ⟨field.map some, none, none, none⟩
  let told : Draft := { addressed with message := some message }
  let placed : Draft := { told with path := if path.isEmpty then none else some path }
  have hfield : record.TakesAll origin record.blank
      (Members.ofOption "field" (field.map Json.string)).sources addressed := by
    cases field with
    | none => exact .nil _
    | some text => exact .cons (.field rfl rfl rfl) (.nil _)
  have hmessage : record.TakesAll origin addressed
      (Members.sources [("message", .string message)]) told :=
    .cons (.field rfl rfl rfl) (.nil _)
  have hpath : record.TakesAll origin told
      (Members.sources (if path.isEmpty then [] else [("path", .array (path.map Json.string))]))
      placed := by
    cases path with
    | nil => exact .nil _
    | cons segment rest =>
      have segments : list Reader.string origin
          (.ofJson (.array ((segment :: rest).map Json.string))) = .ok (segment :: rest) :=
        list_ofJson direct fun _ _ => rfl
      exact .cons (.field rfl rfl (map_eq_ok.mpr ⟨_, segments, rfl⟩)) (.nil _)
  have hvalue : record.TakesAll origin placed (Members.ofOption "value" value).sources
      { placed with value := value } := by
    cases value with
    | none => exact .nil _
    | some v =>
      have value := json_ofJson direct (valid v rfl)
      exact .cons (.field rfl rfl (map_eq_ok.mpr ⟨v, value, rfl⟩)) (.nil _)
  have all := ((hfield.append hmessage).append hpath).append hvalue
  simp only [Members.sources, ← List.map_append] at all
  refine Record.read_ofJson direct all ?_
  cases field <;> cases path <;> rfl

theorem hereditary_toJson {P : Json → Prop} (h : Json.Hereditary P) (issue : Issue)
    (all : ∀ value, issue.value = some value → P value) : P issue.toJson := by
  obtain ⟨field, message, path, value⟩ := issue
  refine h.object ?_ ?_
  · cases field <;> cases path <;> cases value <;> simp [Members.names, Members.ofOption]
  · have hpath : ∀ member ∈ (if path.isEmpty then [] else
        [("path", Json.array (path.map Json.string))]), P member.2 := by
      have segments : P (.array (path.map Json.string)) :=
        h.array (List.forall_mem_map.mpr fun segment _ => h.string segment)
      cases path with
      | nil => exact List.forall_mem_nil _
      | cons => exact List.forall_mem_singleton.mpr segments
    have hfield : ∀ text, field.map Json.string = some text → P text := by
      intro text told
      obtain ⟨name, -, rfl⟩ := Option.map_eq_some_iff.mp told
      exact h.string name
    simp only [List.forall_mem_append]
    exact ⟨⟨⟨Members.forall_mem_ofOption hfield, List.forall_mem_singleton.mpr (h.string message)⟩,
      hpath⟩, Members.forall_mem_ofOption all⟩

end Issue

namespace ErrorBody

/-- The values that the issues of a body tell. -/
def values (body : ErrorBody) : List Json := body.issues.filterMap Issue.value

theorem values_of_mem {P : Json → Prop} {body : ErrorBody} (all : ∀ value ∈ body.values, P value)
    {issue : Issue} (mem : issue ∈ body.issues) : ∀ value, issue.value = some value → P value :=
  fun value told => all value (List.mem_filterMap.mpr ⟨issue, mem, told⟩)

/-- The JSON form of an error body is read as the body. -/
theorem read_toJson (direct : origin.Direct) {body : ErrorBody}
    (valid : ∀ value ∈ body.values, value.Unambiguous) :
    ErrorBody.read origin (.ofJson body.toJson) = .ok body := by
  have issues : list Issue.read origin (.ofJson (.array (body.issues.map Issue.toJson))) =
      .ok body.issues :=
    list_ofJson direct fun issue mem => Issue.read_toJson direct (values_of_mem valid mem)
  exact Record.read_ofJson direct (.cons (.field rfl rfl rfl)
    (.cons (.field rfl rfl (map_eq_ok.mpr ⟨_, issues, rfl⟩)) (.nil _))) rfl

theorem hereditary_toJson {P : Json → Prop} (h : Json.Hereditary P) (body : ErrorBody)
    (all : ∀ value ∈ body.values, P value) : P body.toJson := by
  have issues : ∀ item ∈ body.issues.map Issue.toJson, P item :=
    List.forall_mem_map.mpr fun issue mem => issue.hereditary_toJson h (values_of_mem all mem)
  refine h.object (by simp [Members.names]) (List.forall_mem_cons.mpr ⟨h.string _, ?_⟩)
  exact List.forall_mem_singleton.mpr (h.array issues)

end ErrorBody

/-! ## Values and texts -/

/-- What is decoded from a value is decoded from its text too, whether that is compact or has one
part a line, as long as all numbers are integers and the text is not too deep to be read. -/
theorem Reader.Transfers.decodeText_of_printed {α : Type} {read : Reader α}
    (h : Transfers sameContent read read) {value : Json} (valid : value.Unambiguous)
    (integral : value.Integral) {a : α} (decoded : read.decodeValue value = .ok a) :
    ∀ text ∈ [value.compact, value.pretty], (Source.ofText text).depth < 128 →
      read.decodeText text = .ok a := by
  intro text printed deep
  have same : (Source.ofJson value).Same (.ofText text) := by
    rcases List.mem_pair.mp printed with rfl | rfl
    · exact Source.same_ofText_compact integral
    · exact Source.same_ofText_pretty integral
  have admits : Origin.freshText.Admits (Source.ofText text).depth := by
    intro room fresh
    cases fresh
    exact Nat.le_of_lt_succ deep
  have parses : Reader.ofText json text = .ok value :=
    Source.json_eq_ok_of_same valid same admits
  exact (h.decodeText_eq_ok_iff parses (same.distinct (Source.distinct_ofJson valid)) a).mpr decoded

/-- Failure trees and error bodies are decoded from their JSON form, and from the text of it if
that is less than 128 levels deep and the values that are told have no floating point numbers. The
objects in the values may not repeat names. -/
theorem decode_toJson :
    (∀ tree : IssueTree, (∀ value ∈ tree.values, value.Unambiguous) →
      IssueTree.read.decodeValue tree.toJson = .ok tree ∧
      ((∀ value ∈ tree.values, value.Integral) →
        ∀ text ∈ [tree.toJson.compact, tree.toJson.pretty], (Source.ofText text).depth < 128 →
          IssueTree.read.decodeText text = .ok tree)) ∧
    ∀ body : ErrorBody, (∀ value ∈ body.values, value.Unambiguous) →
      ErrorBody.read.decodeValue body.toJson = .ok body ∧
      ((∀ value ∈ body.values, value.Integral) →
        ∀ text ∈ [body.toJson.compact, body.toJson.pretty], (Source.ofText text).depth < 128 →
          ErrorBody.read.decodeText text = .ok body) := by
  constructor
  · intro tree valid
    have decoded : IssueTree.read.decodeValue tree.toJson = .ok tree :=
      mapError_eq_ok.mpr (tree.readWithin_toJson valid (Nat.le_refl _) Origin.direct_memory)
    refine ⟨decoded, fun integral => ?_⟩
    exact IssueTree.transfers_read.decodeText_of_printed
      (tree.hereditary_toJson Json.hereditary_unambiguous valid)
      (tree.hereditary_toJson Json.hereditary_integral integral) decoded
  · intro body valid
    have decoded : ErrorBody.read.decodeValue body.toJson = .ok body :=
      mapError_eq_ok.mpr (ErrorBody.read_toJson Origin.direct_memory valid)
    refine ⟨decoded, fun integral => ?_⟩
    exact ErrorBody.transfers_read.decodeText_of_printed
      (body.hereditary_toJson Json.hereditary_unambiguous valid)
      (body.hereditary_toJson Json.hereditary_integral integral) decoded

/-- A tree that tells a null, an object and no value at all. -/
def rejectedPage : IssueTree :=
  .within "page" (.composite [.missing (some .null), .refinement "a known field" none,
    .typeMismatch "a number" (some (.object [("limit", .number (.integer (-3)))]))])

theorem decode_rejectedPage :
    IssueTree.read.decodeText rejectedPage.toJson.pretty = .ok rejectedPage ∧
      ErrorBody.read.decodeText (ErrorBody.ofTree rejectedPage).toJson.compact =
        .ok (.ofTree rejectedPage) := by
  let told : List Json := [.null, .object [("limit", .number (.integer (-3)))]]
  have valid : ∀ value ∈ told, value.Unambiguous :=
    List.forall_mem_cons.mpr ⟨.null, List.forall_mem_singleton.mpr (.object (by decide)
      (List.forall_mem_singleton.mpr (.number _)))⟩
  have integral : ∀ value ∈ told, value.Integral :=
    List.forall_mem_cons.mpr ⟨.null, List.forall_mem_singleton.mpr (.object
      (List.forall_mem_singleton.mpr (.number (by decide) (by decide))))⟩
  have deepTree := (Source.same_ofText_pretty
    (rejectedPage.hereditary_toJson Json.hereditary_integral integral)).depth_eq
  have deepBody := (Source.same_ofText_compact
    ((ErrorBody.ofTree rejectedPage).hereditary_toJson Json.hereditary_integral integral)).depth_eq
  constructor
  · refine (decode_toJson.1 rejectedPage valid).2 integral _ (by simp) ?_
    rw [deepTree]
    decide
  · refine (decode_toJson.2 (.ofTree rejectedPage) valid).2 integral _ (by simp) ?_
    rw [deepBody]
    decide

end SchemaDoc
