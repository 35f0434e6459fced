import SchemaDoc.Proofs.Reading.ErrorPaths

/-!
# Failures address the value

The tree of a failure has one leaf, and its path is an address in the value that was rejected: it
leads to the part that is wrong, or to the object in which a member is missing. Only a member that
should not be there is addressed otherwise. This holds of error bodies, issues and teams, since
their records trace their errors.
-/
namespace SchemaDoc

open Reader

variable {α : Type}

/-- The tree has a single leaf, which is reported by a single issue. If something is missing, then
the path but for its last segment leads to an object that has no member named by the last segment.
If something has the wrong type, then the path leads to a part of the value, and the reader that
gets this part rejects it by itself. -/
structure IssueTree.Addresses (tree : IssueTree) (read : Reader α) (value : Json)
    (place : PlacedLeaf) (issue : Issue) : Prop where
  leaves : tree.leaves = [place]
  issues : tree.issues = [issue]
  reports : issue.Reports place
  kind : place.leaf = .missing none ∨ ∃ expectation, place.leaf = .typeMismatch expectation none
  missing : place.leaf = .missing none → ∃ front name, ∃ members : Members,
    place.path = front ++ [name] ∧
      value.resolve? front = some (.object members) ∧ members.get? name = none
  mismatch : ∀ expectation, place.leaf = .typeMismatch expectation none →
    ∃ (β : Type) (inner : Reader β) (steps : List PathStep) (part : Json),
      place.path = PathStep.segments steps ∧ value.resolve? place.path = some part ∧
      Leads inner .memory (.ofJson part) read .memory (.ofJson value) steps ∧
      Fails (inner.decodeValue part)

/-- Unless it is about a member that should not be there, each failure addresses the value. -/
def Reader.FailuresAddress (read : Reader α) (value : Json) : Prop :=
  ∀ error, read.ofValue value = .error error →
    (∀ name known, error.cause ≠ .unknownField name known) →
    read.decodeValue value = .error error.issueTree ∧
      ∃ place issue, error.issueTree.Addresses read value place issue

/-! ## Trees of traced errors -/

theorem IssueTree.leaves_withinAll {tree : IssueTree} {leaf : Leaf} (h : tree.leaf? = some leaf)
    (segments : List String) : (tree.withinAll segments).leaves = [⟨[], segments, leaf⟩] := by
  induction segments with
  | nil => exact leaves_of_leaf? h
  | cons segment rest ih =>
    have wrapped : (tree.withinAll (segment :: rest)).leaves =
      (tree.withinAll rest).leaves.map (PlacedLeaf.within segment) := rfl
    rw [wrapped, ih]
    rfl

theorem IssueTree.issues_of_leaves {tree : IssueTree} {place : PlacedLeaf}
    (h : tree.leaves = [place]) : tree.issues = [place.issueUnder []] := by
  rw [issues, issuesUnder_eq_map, h, List.map_singleton]

namespace ReadError

/-- Whatever the message is, the path of the error is that of the leaf. -/
theorem Plain.leaves_issueTree {error : ReadError} (plain : error.Plain) (path : List PathStep) :
    (error.underAll path).issueTree.leaves =
      [⟨[], PathStep.segments path, .typeMismatch error.cause.message none⟩] := by
  have leaf (expectation : String) : (IssueTree.typeMismatch expectation none).leaf? =
      some (.typeMismatch expectation none) := rfl
  obtain ⟨cause, steps, offset⟩ := error
  obtain ⟨rfl, notMissing, notUnknown⟩ := plain
  rw [underAll, List.append_nil]
  cases cause with
  | missingField name => exact absurd rfl (notMissing name)
  | unknownField name known => exact absurd rfl (notUnknown name known)
  | _ => exact IssueTree.leaves_withinAll (leaf _) _

/-- The name of a missing member ends the path of the leaf. -/
theorem leaves_missingField (path : List PathStep) {name : String} (unticked : '`' ∉ name.toList)
    (offset : Nat) : (underAll path ⟨.missingField name, [], offset⟩).issueTree.leaves =
      [⟨[], PathStep.segments path ++ [name], .missing none⟩] := by
  have leaf : (IssueTree.missing none).leaf? = some (.missing none) := rfl
  have leaves := IssueTree.leaves_withinAll leaf (PathStep.segments path ++ [quotedName name])
  rw [(quotedName_eq_self_iff name).mpr unticked] at leaves
  rw [← leaves, underAll, List.append_nil, issueTree]
  simp only [(quotedName_eq_self_iff name).mpr unticked]
  rfl

end ReadError

/-- A reader that traces its errors addresses the value by its failures. -/
theorem Reader.Traces.failuresAddress {read : Reader α} (h : Traces read) {value : Json}
    (valid : value.Unambiguous) : read.FailuresAddress value := by
  intro error fails expected
  refine ⟨by rw [decodeValue, fails]; rfl, ?_⟩
  cases h value error valid fails with
  | @part β inner part path blamed leads resolves blames about =>
    cases about with
    | whole plain =>
      have leaves := plain.leaves_issueTree path
      have rejected : Fails (inner.decodeValue part) := ⟨blamed.issueTree, by
        rw [decodeValue, ofValue, blames]
        rfl⟩
      exact ⟨_, _, leaves, IssueTree.issues_of_leaves leaves, PlacedLeaf.reports_issue _,
        .inr ⟨_, rfl⟩, fun same => (by cases same),
        fun _ _ => ⟨β, inner, path, part, rfl, resolves, leads, rejected⟩⟩
    | @missing name offset members absent unticked =>
      have leaves := ReadError.leaves_missingField path unticked offset
      exact ⟨_, _, leaves, IssueTree.issues_of_leaves leaves, PlacedLeaf.reports_issue _, .inl rfl,
        fun _ => ⟨_, name, members, rfl, resolves, absent⟩, fun _ same => (by cases same)⟩
    | unknown => exact absurd rfl (expected _ _)

/-! ## Error bodies, issues and teams -/

/-- A required field that is asked for in vain belongs to a slot that is not given. -/
theorem Record.exists_slot_of_needed {β δ : Type} {record : Record δ α} {name missing : String}
    {get : δ → Option β} {set : β → δ → δ} {read : Reader β} {draft : δ}
    (mem : Slot.required name get set read ∈ record.slots)
    (h : needed name (get draft) = .error missing) :
    ∃ slot ∈ record.slots, slot.name = missing ∧ slot.given draft = false ∧
      slot.mayEnd = false := by
  cases hget : get draft with
  | some b =>
    rw [hget] at h
    cases h
  | none =>
    rw [hget] at h
    cases h
    exact ⟨_, mem, rfl, by simp [Slot.required, Slot.of, hget], rfl⟩

theorem User.record_traces : record.Traces where
  slots := List.forall_mem_cons.mpr ⟨Slot.traces_of (fun _ _ => rfl) traces_string,
    List.forall_mem_singleton.mpr (Slot.traces_of (fun _ _ => rfl) (traces_integer _))⟩
  apart := by simp [Record.Apart, record, Slot.required, Slot.apart_of]
  nodup := by decide
  unticked := by decide +kernel
  misses := by
    intro draft name h
    rcases bind_eq_error.mp h with h | ⟨_, -, h⟩
    · exact Record.exists_slot_of_needed List.mem_cons_self h
    rcases bind_eq_error.mp h with h | ⟨_, -, h⟩
    · exact Record.exists_slot_of_needed (List.mem_cons_of_mem _ List.mem_cons_self) h
    · cases h

theorem Team.record_traces : record.Traces where
  slots := List.forall_mem_singleton.mpr
    (Slot.traces_of (fun _ _ => rfl) User.record_traces.read.list)
  apart := List.pairwise_singleton _ _
  nodup := by decide
  unticked := by decide +kernel
  misses := by
    intro draft name h
    rcases bind_eq_error.mp h with h | ⟨_, -, h⟩
    · exact Record.exists_slot_of_needed List.mem_cons_self h
    · cases h

theorem Issue.record_traces : record.Traces where
  slots := List.forall_mem_cons.mpr ⟨Slot.traces_of (fun _ _ => rfl) traces_nullable_string,
    List.forall_mem_cons.mpr ⟨Slot.traces_of (fun _ _ => rfl) traces_string,
      List.forall_mem_cons.mpr ⟨Slot.traces_of (fun _ _ => rfl) traces_string.list,
        List.forall_mem_singleton.mpr (Slot.traces_of (fun _ _ => rfl) traces_json)⟩⟩⟩
  apart := record_apart
  nodup := by decide
  unticked := by decide +kernel
  misses := by
    intro draft name h
    rcases bind_eq_error.mp h with h | ⟨_, -, h⟩
    · exact Record.exists_slot_of_needed (List.mem_cons_of_mem _ List.mem_cons_self) h
    · cases h

theorem ErrorBody.record_traces : record.Traces where
  slots := List.forall_mem_cons.mpr ⟨Slot.traces_of (fun _ _ => rfl) traces_string,
    List.forall_mem_singleton.mpr (Slot.traces_of (fun _ _ => rfl) Issue.record_traces.read.list)⟩
  apart := record_apart
  nodup := by decide
  unticked := by decide +kernel
  misses := by
    intro draft name h
    rcases bind_eq_error.mp h with h | ⟨_, -, h⟩
    · exact Record.exists_slot_of_needed List.mem_cons_self h
    rcases bind_eq_error.mp h with h | ⟨_, -, h⟩
    · exact Record.exists_slot_of_needed (List.mem_cons_of_mem _ List.mem_cons_self) h
    · cases h

/-- If a value is rejected as an error body, an issue or a team, and not for a member that should
not be there, then the tree of the failure addresses the value. -/
theorem decodeValue_failures_address {value : Json} (valid : value.Unambiguous) :
    ErrorBody.read.FailuresAddress value ∧ Issue.read.FailuresAddress value ∧
      Team.read.FailuresAddress value :=
  ⟨ErrorBody.record_traces.read.failuresAddress valid,
    Issue.record_traces.read.failuresAddress valid, Team.record_traces.read.failuresAddress valid⟩

/-- A team of one user whose age is not told. -/
def Team.ageless : Json := .object [("users", .array [.object [("name", .string "a")]])]

/-- An error body with an issue whose path has a number in it. -/
def ErrorBody.numbered : Json :=
  .object [("message", .string "m"), ("issues", .array [.object [("message", .string "a"),
    ("path", .array [.string "x", .number (.integer 1)])]])]

theorem decodeValue_failures_address_samples :
    (∃ tree place issue, Team.read.decodeValue Team.ageless = .error tree ∧
      tree.Addresses Team.read Team.ageless place issue ∧ place.leaf = .missing none ∧
      place.path = ["users", "0", "age"]) ∧
    ∃ tree place issue, ErrorBody.read.decodeValue ErrorBody.numbered = .error tree ∧
      tree.Addresses ErrorBody.read ErrorBody.numbered place issue ∧
      place.path = ["issues", "0", "path", "1"] := by
  have validTeam : Team.ageless.Unambiguous :=
    .object (by decide) (List.forall_mem_singleton.mpr (.array (List.forall_mem_singleton.mpr
      (.object (by decide) (List.forall_mem_singleton.mpr (.string _))))))
  have validBody : ErrorBody.numbered.Unambiguous :=
    .object (by decide) (List.forall_mem_cons.mpr ⟨.string _, List.forall_mem_singleton.mpr
      (.array (List.forall_mem_singleton.mpr (.object (by decide) (List.forall_mem_cons.mpr
        ⟨.string _, List.forall_mem_singleton.mpr (.array (List.forall_mem_cons.mpr
          ⟨.string _, List.forall_mem_singleton.mpr (.number _)⟩))⟩))))⟩)
  constructor
  · obtain ⟨decodes, place, issue, addresses⟩ :=
      (decodeValue_failures_address validTeam).2.2 _ rfl fun _ _ same => by cases same
    have there : place = ⟨[], ["users", "0", "age"], .missing none⟩ :=
      List.singleton_inj.mp (addresses.leaves.symm.trans (by cbv))
    exact ⟨_, place, issue, decodes, addresses, by rw [there], by rw [there]⟩
  · obtain ⟨decodes, place, issue, addresses⟩ :=
      (decodeValue_failures_address validBody).1 _ rfl fun _ _ same => by cases same
    have there : place.path = ["issues", "0", "path", "1"] :=
      congrArg PlacedLeaf.path (List.singleton_inj.mp (addresses.leaves.symm.trans (by rfl)))
    exact ⟨_, place, issue, decodes, addresses, there⟩

end SchemaDoc
