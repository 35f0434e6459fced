import SchemaDoc.Issue.Format
import SchemaDoc.Proofs.Reading.Records

/-!
# Reading failures from sources that agree

A failure tree, an issue or an error body that is read from one source is read from every other
source with the same content.
-/
namespace SchemaDoc

open Reader

/-! ## Failure trees -/

namespace IssueTree

variable {read read' : Reader IssueTree}

theorem tagRecord_transfers : tagRecord.Transfers (fun _ => sameContent) tagRecord := by
  have tag : Transfers sameContent (variant Tag.variants) (variant Tag.variants) :=
    (transfers_variant _).toSameContent
  exact Record.transfers_of_slots (.cons (Slot.transfers_of tag) .nil) rfl rfl rfl

theorem recordOf_transfers (h : Transfers sameContent read read') (tag : Tag) :
    (recordOf read tag).Transfers (fun _ => sameContent) (recordOf read' tag) := by
  have text : Transfers sameContent string string := transfers_string.toSameContent
  have value : Transfers sameContent json json := transfers_json.toSameContent
  have trees : Transfers sameContent (list read) (list read') :=
    h.list.mono fun _ _ _ => itemwise_of_sameContent
  cases tag with
  | typeMismatch =>
    exact Record.transfers_of_slots
      (.cons (Slot.transfers_of text) (.cons (Slot.transfers_of value) .nil)) rfl rfl rfl
  | missing =>
    exact Record.transfers_of_slots (.cons (Slot.transfers_of value) .nil) rfl rfl rfl
  | within =>
    exact Record.transfers_of_slots
      (.cons (Slot.transfers_of text) (.cons (Slot.transfers_of h) .nil)) rfl rfl rfl
  | composite =>
    exact Record.transfers_of_slots (.cons (Slot.transfers_of trees) .nil) rfl rfl rfl
  | refinement =>
    exact Record.transfers_of_slots
      (.cons (Slot.transfers_of text) (.cons (Slot.transfers_of value) .nil)) rfl rfl rfl

theorem tagRecord_apart : tagRecord.Apart := List.pairwise_singleton _ _

theorem recordOf_apart (read : Reader IssueTree) (tag : Tag) : (recordOf read tag).Apart := by
  cases tag <;> simp [Record.Apart, recordOf, Draft.expectationSlot, Draft.actualSlot,
    Draft.segmentSlot, Draft.innerSlot, Draft.childrenSlot, Slot.required, Slot.defaulted,
    Slot.apart_of]

/-- A tree that is an object is read in two goes: its tag, then the other members. -/
theorem readWithin_object_eq_ok_iff {depth start : Nat} {origin : Origin} {entries : Entries}
    {tree : IssueTree} :
    readWithin (depth + 1) origin (.object start entries) = .ok tree ↔ ∃ inner tag,
      origin.enter start = .ok inner ∧ tagRecord.ofEntries inner entries = .ok tag ∧
      (recordOf (readWithin depth) tag).ofEntries .buffer (entries.without ["_tag"]) =
        .ok tree := by
  simp only [readWithin, Record.ofEntries, bind_eq_ok, buffered_eq_ok_iff,
    Record.complete_eq_ok_iff]
  constructor
  · rintro ⟨inner, entered, ⟨draft, stop⟩, hdraft, tag, htag, h⟩
    exact ⟨inner, tag, entered, ⟨(draft, stop), hdraft, htag⟩, h⟩
  · rintro ⟨inner, tag, entered, ⟨⟨draft, stop⟩, hdraft, htag⟩, h⟩
    exact ⟨inner, entered, (draft, stop), hdraft, tag, htag, h⟩

theorem readWithin_array_eq_ok_iff {depth start : Nat} {origin : Origin} {items : Items}
    {tree : IssueTree} :
    readWithin (depth + 1) origin (.array start items) = .ok tree ↔ ∃ inner first rest tag,
      origin.enter start = .ok inner ∧ items = .item first rest ∧
      variant Tag.variants inner first = .ok tag ∧ (∃ stop, keepItems inner 1 rest = .ok stop) ∧
      (recordOf (readWithin depth) tag).ofItems .buffer rest = .ok tree := by
  simp only [readWithin, bind_eq_ok]
  constructor
  · rintro ⟨inner, entered, h⟩
    split at h
    · next first rest =>
      obtain ⟨tag, htag, h⟩ := bind_eq_ok.mp h
      obtain ⟨stop, hstop, h⟩ := bind_eq_ok.mp h
      exact ⟨inner, first, rest, tag, entered, rfl, PathStep.into_eq_ok.mp htag, ⟨stop, hstop⟩,
        buffered_eq_ok_iff.mp h⟩
    · obtain ⟨stop, -, h⟩ := bind_eq_ok.mp h
      cases h
  · rintro ⟨inner, first, rest, tag, entered, rfl, htag, ⟨stop, hstop⟩, h⟩
    exact ⟨inner, entered, bind_eq_ok.mpr ⟨tag, PathStep.into_eq_ok.mpr htag,
      bind_eq_ok.mpr ⟨stop, hstop, buffered_eq_ok_iff.mpr h⟩⟩⟩

theorem recordOf_others (read : Reader IssueTree) (tag : Tag) :
    (recordOf read tag).others = .skipped := by
  cases tag <;> rfl

section

variable {depth room start : Nat} {origin origin' : Origin} {source' : Source} {tree : IssueTree}

theorem readWithin_same_of_object {entries : Entries}
    (ih : Transfers sameContent (readWithin depth) (readWithin depth))
    (related : sameContent room (.object start entries) source')
    (matching : origin.Matches room origin' source')
    (hread : readWithin (depth + 1) origin (.object start entries) = .ok tree) :
    readWithin (depth + 1) origin' source' = .ok tree := by
  obtain ⟨inner, tag, entered, htag, htree⟩ := readWithin_object_eq_ok_iff.mp hread
  have open_ : (recordOf (readWithin depth) tag).others ≠ .refused := by
    simp [recordOf_others]
  obtain ⟨members, -, lists, -⟩ := Record.ofEntries_eq_ok_iff.mp htag
  obtain ⟨start', entries', members', rfl, lists', rearranged⟩ :=
    (recordwise_of_sameContent (tagRecord.names ++ (recordOf (readWithin depth) tag).names)
      related).1 _ _ _ rfl lists
  obtain ⟨inner', entered', parts⟩ := matching.enter trivial entered
  have htag' : tagRecord.ofEntries inner' entries' = .ok tag :=
    tagRecord_transfers.ofEntries tagRecord_apart nofun
      (rearranged.mono fun _ => List.mem_append_left _)
      (fun member mem => parts _ (.member lists' mem)) lists lists' htag
  have htree' : (recordOf (readWithin depth) tag).ofEntries .buffer
      (entries'.without ["_tag"]) = .ok tree :=
    (recordOf_transfers ih tag).ofEntries (recordOf_apart _ tag) open_
      ((rearranged.without _).mono fun _ => List.mem_append_right _) (fun _ _ => .buffer)
      (lists.without _) (lists'.without _) htree
  exact readWithin_object_eq_ok_iff.mpr ⟨inner', tag, entered', htag', htree'⟩

theorem readWithin_same_of_array {items : Items}
    (ih : Transfers sameContent (readWithin depth) (readWithin depth))
    (related : sameContent room (.array start items) source')
    (matching : origin.Matches room origin' source')
    (hread : readWithin (depth + 1) origin (.array start items) = .ok tree) :
    readWithin (depth + 1) origin' source' = .ok tree := by
  obtain ⟨inner, first, rest, tag, entered, rfl, htag, ⟨stop, kept⟩, htree⟩ :=
    readWithin_array_eq_ok_iff.mp hread
  obtain ⟨sources, draft, lists, filled, -⟩ := Record.ofItems_eq_ok_iff.mp htree
  have short : sources.length ≤ (recordOf (readWithin depth) tag).names.length := by
    simpa [Record.names] using filled.length_le
  obtain ⟨start', items', _, rfl, lists', each⟩ :=
    itemwise_of_sameContent related _ _ _ rfl (.item lists)
  obtain ⟨inner', entered', parts⟩ := matching.enter trivial entered
  have inside := fun source mem => parts source (.item lists' mem)
  cases each with
  | @cons _ first' _ sources' hfirst hrest =>
    cases lists' with
    | @item _ rest' _ lists' =>
      obtain ⟨hmatching, hmatchings⟩ := List.forall_mem_cons.mp inside
      have htag' : variant Tag.variants inner' first' = .ok tag :=
        transfers_variant _ _ _ _ _ _ _ hfirst.1 hmatching htag
      have kept' : ∃ stop', keepItems inner' 1 rest' = .ok stop' :=
        keepItems_of_same lists lists' (hrest.imp fun _ _ h => h.1) hmatchings kept
      have htree' : (recordOf (readWithin depth) tag).ofItems .buffer rest' = .ok tree :=
        (recordOf_transfers ih tag).ofItems (R := fun _ => sameContent)
          (forall₂_zip_left short hrest) (fun _ _ => .buffer) lists lists' htree
      exact readWithin_array_eq_ok_iff.mpr
        ⟨inner', first', rest', tag, entered', rfl, htag', kept', htree'⟩

end

theorem transfers_readWithin (depth : Nat) :
    Transfers sameContent (readWithin depth) (readWithin depth) := by
  induction depth with
  | zero => exact fun _ _ _ _ _ _ _ _ h => nomatch h
  | succ depth ih =>
    intro room origin origin' source source' tree related matching hread
    cases source with
    | object start entries => exact readWithin_same_of_object ih related matching hread
    | array start items => exact readWithin_same_of_array ih related matching hread
    | _ => cases hread

/-- A tree that is read from a source is read from every other one with the same content. -/
theorem transfers_read : Transfers sameContent IssueTree.read IssueTree.read := by
  intro room origin origin' source source' tree related matching hread
  unfold IssueTree.read at hread ⊢
  rw [related.1.depth_eq]
  exact transfers_readWithin _ _ _ _ _ _ _ related matching hread

end IssueTree

/-! ## Issues and error bodies -/

theorem Issue.record_transfers : Issue.record.Transfers (fun _ => sameContent) Issue.record := by
  have text : Transfers sameContent string string := transfers_string.toSameContent
  have value : Transfers sameContent json json := transfers_json.toSameContent
  have null : Transfers sameContent (nullable string) (nullable string) :=
    text.nullable fun _ _ _ related => related.1.null_iff
  have path : Transfers sameContent (list string) (list string) :=
    text.list.mono fun _ _ _ => itemwise_of_sameContent
  exact Record.transfers_of_slots (.cons (Slot.transfers_of null) (.cons (Slot.transfers_of text)
    (.cons (Slot.transfers_of path) (.cons (Slot.transfers_of value) .nil)))) rfl rfl rfl

theorem Issue.record_apart : Issue.record.Apart := by
  simp [Record.Apart, Issue.record, Slot.required, Slot.defaulted, Slot.apart_of]

/-- An issue that is read from a source is read from every other one with the same content. -/
theorem Issue.transfers_read : Transfers sameContent Issue.read Issue.read :=
  (Issue.record_transfers.read Issue.record_apart nofun).mono fun _ _ _ =>
    recordwise_of_sameContent _

theorem ErrorBody.record_transfers :
    ErrorBody.record.Transfers (fun _ => sameContent) ErrorBody.record := by
  have text : Transfers sameContent string string := transfers_string.toSameContent
  have issues : Transfers sameContent (list Issue.read) (list Issue.read) :=
    Issue.transfers_read.list.mono fun _ _ _ => itemwise_of_sameContent
  exact Record.transfers_of_slots
    (.cons (Slot.transfers_of text) (.cons (Slot.transfers_of issues) .nil)) rfl rfl rfl

theorem ErrorBody.record_apart : ErrorBody.record.Apart := by
  simp [Record.Apart, ErrorBody.record, Slot.required, Slot.apart_of]

/-- An error body that is read from a source is read from every other one with the same content. -/
theorem ErrorBody.transfers_read : Transfers sameContent ErrorBody.read ErrorBody.read :=
  (ErrorBody.record_transfers.read ErrorBody.record_apart nofun).mono fun _ _ _ =>
    recordwise_of_sameContent _

end SchemaDoc
