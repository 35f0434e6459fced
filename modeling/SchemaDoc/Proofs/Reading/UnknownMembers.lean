import Mathlib.Data.List.TakeWhile
import SchemaDoc.Proofs.Issue.Leaves
import SchemaDoc.Proofs.Reading.Leads
import SchemaDoc.Proofs.Source.Printed
import SchemaDoc.Reading.Decode
import SchemaDoc.Sample.Team

/-!
# Members that closed records do not know

A closed record fails at the first member that is none of its own. The path of the error ends with
the name of the member. In the failure tree the name is told from the message as well, where it
stands between backticks, and is only put once if both agree. So the tree has the name at its place
and nothing else, unless the name itself has a backtick: then the part before it follows the name.
-/
namespace SchemaDoc

variable {α : Type}

namespace ReadError

/-- Only a backtick cuts a name short. -/
theorem quotedName_eq_self_iff (name : String) : quotedName name = name ↔ '`' ∉ name.toList := by
  rw [quotedName, ← String.toList_inj, String.toList_ofList, List.takeWhile_eq_self_iff]
  constructor
  · intro h mem
    simpa using h '`' mem
  · intro h c mem
    simpa using fun same : c = '`' => h (same ▸ mem)

end ReadError

/-- At the end of the path a closed record gets an object, in which a member that is none of its
own has the name. All members before it are taken. -/
inductive Reader.MeetsUnknown (read : Reader α) (origin : Origin) (source : Source) :
    List PathStep → String → Prop
  | member {β δ : Type} {record : Record δ β} {inner opened : Origin} {start : Nat}
      {entries : Entries} {before after : List (String × Source)} {name : String} {value : Source}
      {draft : δ} {path : List PathStep} :
      Leads record.read inner (.object start entries) read origin source path →
      record.others = .refused → inner.enter start = .ok opened →
      entries.Lists (before ++ (name, value) :: after) →
      record.TakesAll opened record.blank before draft → name ∉ record.names →
      MeetsUnknown read origin source path name

/-- The tree has one issue, about an unexpected member. Its path is that of the record and then the
name, and nothing but a backtick in the name can make it longer. -/
structure IssueTree.ReportsUnknown (tree : IssueTree) (record : List String) (name : String)
    (issue : Issue) : Prop where
  issues : tree.issues = [issue]
  message : issue.message = "is unexpected"
  path_iff : issue.path = record ++ [name] ↔ '`' ∉ name.toList
  repeated : '`' ∈ name.toList → issue.path = record ++ [name, ReadError.quotedName name]

theorem Record.read_unknown {β δ : Type} {record : Record δ β} {origin opened : Origin}
    {start : Nat} {entries : Entries} {before after : List (String × Source)} {name : String}
    {value : Source} {draft : δ} (closed : record.others = .refused)
    (entered : origin.enter start = .ok opened)
    (lists : entries.Lists (before ++ (name, value) :: after))
    (taken : record.TakesAll opened record.blank before draft) (unknown : name ∉ record.names) :
    ∃ offset, record.read origin (.object start entries) =
      .error ⟨.unknownField name record.names, [.key name], offset⟩ := by
  obtain ⟨offset, fails⟩ :=
    readEntries_unknown closed lists taken (slot?_eq_none_iff.mpr unknown)
  refine ⟨offset, ?_⟩
  rw [read, entered]
  simp only [bind, Except.bind, ofEntries, fails]

/-- The path of the error leads to the member. -/
theorem Reader.MeetsUnknown.eq_error {read : Reader α} {origin : Origin} {source : Source}
    {path : List PathStep} {name : String} (h : read.MeetsUnknown origin source path name) :
    ∃ known offset, read origin source =
      .error ⟨.unknownField name known, path ++ [.key name], offset⟩ := by
  cases h with
  | member leads closed entered lists taken unknown =>
    obtain ⟨offset, fails⟩ := Record.read_unknown closed entered lists taken unknown
    exact ⟨_, offset, leads.eq_error fails⟩

namespace ReadError

/-- Where the tree of an error about an unknown member has the name. -/
theorem issueTree_unknown (path : List PathStep) (name : String) (known : List String)
    (offset : Nat) : issueTree ⟨.unknownField name known, path ++ [PathStep.key name], offset⟩ =
      .withinAll (if '`' ∈ name.toList then PathStep.segments path ++ [name, quotedName name]
        else PathStep.segments path ++ [name]) (.typeMismatch "is unexpected" none) := by
  have segments : (path ++ [PathStep.key name]).filterMap PathStep.segment? =
      PathStep.segments path ++ [name] := List.filterMap_append
  have whole : name = quotedName name ↔ '`' ∉ name.toList :=
    eq_comm.trans (quotedName_eq_self_iff name)
  simp only [issueTree, segments, List.getLast?_concat, Option.some.injEq, whole, ite_not,
    List.append_assoc, List.cons_append, List.nil_append]

theorem issues_withinAll_unexpected (address : List String) :
    (IssueTree.withinAll address (.typeMismatch "is unexpected" none)).issues =
      [.ofLeaf "is unexpected" address none] := by
  have message : Issue.messageOf "is unexpected" = "is unexpected" := by decide +kernel
  rw [IssueTree.issues, IssueTree.issuesUnder_withinAll, IssueTree.issuesUnder, message]
  rfl

theorem reportsUnknown (path : List PathStep) (name : String) (known : List String)
    (offset : Nat) :
    ∃ issue, (issueTree ⟨.unknownField name known, path ++ [PathStep.key name],
      offset⟩).ReportsUnknown (PathStep.segments path) name issue := by
  by_cases backtick : '`' ∈ name.toList
  · refine ⟨.ofLeaf "is unexpected" (PathStep.segments path ++ [name, quotedName name]) none,
      ?_, rfl, ?_, fun _ => rfl⟩
    · rw [issueTree_unknown, if_pos backtick, issues_withinAll_unexpected]
    · simp [Issue.ofLeaf, backtick]
  · refine ⟨.ofLeaf "is unexpected" (PathStep.segments path ++ [name]) none, ?_, rfl,
      iff_of_true rfl backtick, fun mem => absurd mem backtick⟩
    rw [issueTree_unknown, if_neg backtick, issues_withinAll_unexpected]

end ReadError

/-- Wherever a closed record stands, and whether it is read from a text or from a value, a member
that it does not know is reported as unexpected, in a single issue. The path of the issue is that of
the record and the name if and only if the name has no backtick. -/
theorem Reader.unknown_member_reported (read : Reader α) (path : List PathStep) (name : String) :
    (∀ text, read.MeetsUnknown .freshText (Source.ofText text) path name →
      ∃ tree issue, read.decodeText text = .error tree ∧
        tree.ReportsUnknown (PathStep.segments path) name issue) ∧
    ∀ value, read.MeetsUnknown .memory (Source.ofJson value) path name →
      ∃ tree issue, read.decodeValue value = .error tree ∧
        tree.ReportsUnknown (PathStep.segments path) name issue := by
  constructor
  · intro text meets
    obtain ⟨known, offset, fails⟩ := meets.eq_error
    obtain ⟨issue, reports⟩ := ReadError.reportsUnknown path name known offset
    refine ⟨_, issue, ?_, reports⟩
    rw [decodeText, ofText, fails]
    rfl
  · intro value meets
    obtain ⟨known, offset, fails⟩ := meets.eq_error
    obtain ⟨issue, reports⟩ := ReadError.reportsUnknown path name known offset
    refine ⟨_, issue, ?_, reports⟩
    rw [decodeValue, ofValue, fails]
    rfl

/-! ## A name with a backtick -/

namespace User

/-- A user with a further member. -/
def ticked : Json :=
  .object [("name", .string "a"), ("age", .number (.integer 1)), ("a`b", .number (.integer 2))]

theorem takesAll_name_age (origin : Origin) (start stop start' stop' : Nat) :
    record.TakesAll origin record.blank
      [("name", .scalar start stop (.string "a")),
        ("age", .scalar start' stop' (.number (.integer 1)))] ⟨some "a", some 1⟩ :=
  .cons (.field rfl rfl rfl) (.cons (.field rfl rfl rfl) (.nil _))

theorem meetsUnknown_ticked {source : Source} {origin opened : Origin}
    (same : (Source.ofJson ticked).Same source)
    (entered : ∀ start, origin.enter start = .ok opened) :
    read.MeetsUnknown origin source [] "a`b" := by
  obtain ⟨start, entries, rfl, inner⟩ := same.of_object
  obtain ⟨_, lists, each⟩ := (Entries.lists_ofList _).of_same inner
  rcases each with _ | @⟨_, ⟨_, _⟩, _, _, ⟨rfl, hname⟩, _ | @⟨_, ⟨_, _⟩, _, _, ⟨rfl, hage⟩, each⟩⟩
  rcases each with _ | @⟨_, ⟨_, _⟩, _, _, ⟨rfl, _⟩, _ | _⟩
  obtain ⟨_, _, rfl⟩ := hname.of_scalar
  obtain ⟨_, _, rfl⟩ := hage.of_scalar
  have lists : entries.Lists ([_, _] ++ ("a`b", _) :: []) := lists
  exact .member .here rfl (entered start) lists (takesAll_name_age opened _ _ _ _) (by decide)

end User

namespace Team

def ticked : Json := .object [("users", .array [User.ticked])]

theorem meetsUnknown_ticked :
    read.MeetsUnknown .memory (Source.ofJson ticked) [.key "users", .index 0] "a`b" := by
  have listed : (Items.ofList [User.ticked]).Lists ([] ++ Source.ofJson User.ticked :: []) :=
    .item (.close 0)
  have users : Leads User.record.read .memory (Source.ofJson User.ticked)
      (Reader.list User.read) .memory (Source.ofJson (.array [User.ticked])) [.index 0] :=
    .item rfl listed nofun .here
  have listed : (Entries.ofList [("users", .array [User.ticked])]).Lists
      ([] ++ ("users", Source.ofJson (.array [User.ticked])) :: []) := .entry rfl (.close 0)
  have team : Leads User.record.read .memory (Source.ofJson User.ticked) record.read .memory
      (Source.ofJson ticked) [.key "users", .index 0] :=
    .member rfl listed (.nil _) rfl rfl (Slot.readsBy_of ..) users
  have listed : (Entries.ofList [("name", .string "a"), ("age", .number (.integer 1)),
      ("a`b", .number (.integer 2))]).Lists ([_, _] ++ ("a`b", _) :: []) :=
    .entry rfl (.entry rfl (.entry rfl (.close 0)))
  exact .member team rfl rfl listed (User.takesAll_name_age ..) (by decide)

end Team

theorem Reader.unknown_member_reported_ticked :
    (∃ tree issue, User.read.decodeText User.ticked.compact = .error tree ∧
      tree.ReportsUnknown [] "a`b" issue) ∧
    ∃ tree issue, Team.read.decodeValue Team.ticked = .error tree ∧
      tree.ReportsUnknown ["users", "0"] "a`b" issue := by
  have integral : User.ticked.Integral :=
    .object (List.forall_mem_cons.mpr ⟨.string _, List.forall_mem_cons.mpr
      ⟨.number (by decide) (by decide),
        List.forall_mem_singleton.mpr (.number (by decide) (by decide))⟩⟩)
  have same := Source.same_ofText_compact integral
  exact ⟨(unknown_member_reported User.read [] "a`b").1 _
      (User.meetsUnknown_ticked same fun _ => rfl),
    (unknown_member_reported Team.read [.key "users", .index 0] "a`b").2 _ Team.meetsUnknown_ticked⟩

/-- The part of the name before the backtick is added to the path. -/
theorem Reader.ticked_path_repeats : ∃ tree, User.read.decodeValue User.ticked = .error tree ∧
    tree.issues.map Issue.path = [["a`b", "a"]] ∧ tree.issues.map Issue.path ≠ [["a`b"]] := by
  refine ⟨_, rfl, ?_, ?_⟩ <;> decide +kernel

end SchemaDoc
