import SchemaDoc.Proofs.Issue.Leaves
import SchemaDoc.Proofs.Issue.Reading
import SchemaDoc.Proofs.Json.Pointer
import SchemaDoc.Proofs.Reading.Leads
import SchemaDoc.Proofs.Reading.UnknownMembers

/-!
# Error paths lead into the value

When a value in memory is rejected, the path of the error leads to a part of the value, and the
reader that gets this part rejects it by itself. A missing member is reported under its name, at the
object that lacks it. `Reader.Traces` says so of a reader, with one rule for each way to build
readers, so it holds of all that are built from them.
-/
namespace SchemaDoc

variable {α β δ : Type}

namespace ReadError

/-- The cause is told by the message alone. -/
def Plain (error : ReadError) : Prop :=
  error.path = [] ∧ (∀ name, error.cause ≠ .missingField name) ∧
    ∀ name known, error.cause ≠ .unknownField name known

/-- The error is about the value as a whole, or about a member that it lacks or should not have. -/
inductive About : ReadError → Json → Prop
  | whole {error : ReadError} {value : Json} : error.Plain → About error value
  | missing {name : String} {offset : Nat} {members : Members} : members.get? name = none →
      '`' ∉ name.toList → About ⟨.missingField name, [], offset⟩ (.object members)
  | unknown {name : String} {known : List String} {offset : Nat} {value : Json} :
      About ⟨.unknownField name known, [.key name], offset⟩ value

/-- The error is that of a reader which gets a part of the value, at the end of the path. -/
inductive Traced (read : Reader α) (value : Json) : ReadError → Prop
  | part {β : Type} {inner : Reader β} {part : Json} {path : List PathStep} {error : ReadError} :
      Leads inner .memory (.ofJson part) read .memory (.ofJson value) path →
      value.resolve? (PathStep.segments path) = some part →
      inner .memory (.ofJson part) = .error error → error.About part →
      Traced read value (error.underAll path)

end ReadError

namespace Reader

/-- Each error of the reader about a value in memory is that of a reader of a part. -/
def Traces (read : Reader α) : Prop :=
  ∀ (value : Json) (error : ReadError), value.Unambiguous →
    read .memory (.ofJson value) = .error error → error.Traced read value

end Reader

/-! ## Values as a whole -/

theorem ReadError.plain_invalidLength (length : Nat) (expected : String) (offset : Nat) :
    (ReadError.here (.invalidLength length expected) offset).Plain :=
  ⟨rfl, nofun, nofun⟩

theorem ReadError.traced_whole {read : Reader α} {value : Json} {error : ReadError}
    (fails : read .memory (.ofJson value) = .error error) (about : error.About value) :
    error.Traced read value :=
  .part .here rfl fails about

namespace Reader

theorem traces_of_plain {read : Reader α}
    (h : ∀ origin source error, read origin source = .error error → error.Plain) : Traces read :=
  fun _ _ _ fails => ReadError.traced_whole fails (.whole (h _ _ _ fails))

theorem plain_mismatch (expected : String) (source : Source) :
    (source.mismatch expected).Plain := by
  cases source <;> exact ⟨rfl, nofun, nofun⟩

theorem plain_string {origin : Origin} {source : Source} {error : ReadError}
    (h : string origin source = .error error) : error.Plain := by
  unfold string at h
  split at h <;> cases h
  exact plain_mismatch _ _

theorem traces_string : Traces string := traces_of_plain fun _ _ _ => plain_string

theorem traces_integer (range : IntegerRange) : Traces (integer range) := by
  refine traces_of_plain fun origin source error h => ?_
  unfold integer at h
  split at h
  · next stop n =>
    unfold IntegerRange.check at h
    split at h <;> cases h
    exact ⟨rfl, nofun, nofun⟩
  · cases h
    exact plain_mismatch _ _

theorem traces_nullable_string : Traces (nullable string) := by
  refine traces_of_plain fun origin source error h => ?_
  unfold nullable at h
  split at h
  · cases h
  · cases hread : string origin source with
    | ok text => rw [hread] at h; cases h
    | error blamed =>
      rw [hread] at h
      cases h
      exact plain_string hread

/-- Any value in memory can be read as a value. -/
theorem traces_json : Traces json := by
  intro value error valid fails
  have reads : json .memory (.ofJson value) = .ok value :=
    Source.json_eq_ok_of_same valid rfl nofun
  cases reads.symm.trans fails

end Reader

/-! ## Items -/

theorem exists_of_map_eq {γ : Type} {f : β → γ} {values : List β} {before after : List γ} {c : γ}
    (h : values.map f = before ++ c :: after) :
    ∃ front value rest, values = front ++ value :: rest ∧ front.map f = before ∧ f value = c := by
  obtain ⟨front, rest, rfl, hfront, hrest⟩ := List.map_eq_append_iff.mp h
  obtain ⟨value, rest, rfl, hvalue, -⟩ := List.map_eq_cons_iff.mp hrest
  exact ⟨front, value, rest, rfl, hfront, hvalue⟩

/-- If a list fails although it is written to its end, then it is for the first item that is
rejected. -/
theorem Reader.exists_of_items_eq_error {read : Reader α} {origin : Origin} {written : Items}
    {sources : List Source} {error : ReadError} {place : Nat} (lists : written.Lists sources)
    (h : items read origin place written = .error error) :
    ∃ before source after blamed, sources = before ++ source :: after ∧
      (∀ earlier ∈ before, ∃ a, read origin earlier = .ok a) ∧
      read origin source = .error blamed ∧
      error = blamed.under (.index (place + before.length)) := by
  induction lists generalizing place with
  | close => cases h
  | @item value rest sources lists ih =>
    rw [items] at h
    cases hread : read origin value with
    | error blamed =>
      rw [hread] at h
      cases h
      exact ⟨[], value, sources, blamed, rfl, List.forall_mem_nil _, hread, rfl⟩
    | ok a =>
      rw [hread] at h
      rcases bind_eq_error.mp h with h | ⟨_, -, h⟩
      · cases h
      · rcases bind_eq_error.mp h with h | ⟨_, -, h⟩
        · obtain ⟨before, source, after, blamed, rfl, accepted, rejected, rfl⟩ := ih h
          refine ⟨value :: before, source, after, blamed, rfl,
            List.forall_mem_cons.mpr ⟨⟨a, hread⟩, accepted⟩, rejected, ?_⟩
          rw [List.length_cons, Nat.add_right_comm, Nat.add_assoc]
        · cases h

/-- An item that is rejected is found under its place in decimal. -/
theorem Json.resolve?_item {front rest : List Json} {value part : Json} {path : List PathStep}
    (resolves : value.resolve? (PathStep.segments path) = some part) :
    (Json.array (front ++ value :: rest)).resolve?
      (PathStep.segments (.index front.length :: path)) = some part := by
  have item : itemAt? (front ++ value :: rest) (toString front.length) = some value := by
    rw [itemAt?_toString, List.getElem?_append_right le_rfl, Nat.sub_self, List.getElem?_cons_zero]
  have child : (Json.array (front ++ value :: rest)).child? (toString front.length) = some value :=
    item
  have segments : PathStep.segments (.index front.length :: path) =
      toString front.length :: PathStep.segments path := rfl
  rw [segments, resolve?_cons, child, Option.bind_some, resolves]

namespace Reader

theorem Traces.list {read : Reader α} (h : Traces read) : Traces (list read) := by
  intro value error valid fails
  cases value with
  | array values =>
    have listed := Items.lists_ofList values
    obtain ⟨before, source, after, blamed, hsplit, accepted, rejected, rfl⟩ :=
      exists_of_items_eq_error listed fails
    obtain ⟨front, value, rest, rfl, rfl, rfl⟩ := exists_of_map_eq hsplit
    have valid : value.Unambiguous := valid.of_item (by simp)
    rw [hsplit] at listed
    rw [List.length_map, Nat.zero_add]
    cases h value blamed valid rejected with
    | part leads resolves blames about =>
      have entered : Origin.memory.enter 0 = .ok .memory := rfl
      have leads := Leads.item entered listed accepted leads
      rw [List.length_map] at leads
      exact .part leads (Json.resolve?_item resolves) blames about
  | _ =>
    cases fails
    exact ReadError.traced_whole rfl (.whole (plain_mismatch _ _))

end Reader

/-! ## Records -/

/-- The slot is filled by a reader that traces its errors, and is given from then on. -/
structure Slot.Traces (slot : Slot δ) : Prop where
  reads : ∃ (β : Type) (read : Reader β), slot.ReadsBy read ∧ Reader.Traces read
  gives {origin : Origin} {source : Source} {draft filled : δ} :
    slot.fill origin source draft = .ok filled → slot.given filled = true

theorem Slot.traces_of {name : String} {get : δ → Option β} {set : β → δ → δ} {mayEnd : Bool}
    {read : Reader β} (hget : ∀ b draft, get (set b draft) = some b) (h : read.Traces) :
    (Slot.of name get set mayEnd read).Traces where
  reads := ⟨β, read, Slot.readsBy_of name get set mayEnd read, h⟩
  gives := by
    intro origin source draft filled hfill
    obtain ⟨b, -, rfl⟩ := map_eq_ok.mp hfill
    simp [Slot.of, hget]

namespace Record

variable {record : Record δ α} {draft next : δ}

/-- Slots that trace their errors and do not disturb each other, under plain names that differ. A
draft makes no record only if a slot is not given that is asked for. -/
structure Traces (record : Record δ α) : Prop where
  slots : ∀ slot ∈ record.slots, slot.Traces
  apart : record.Apart
  nodup : record.names.Nodup
  unticked : ∀ name ∈ record.names, '`' ∉ name.toList
  misses : ∀ draft name, record.finish draft = .error name →
    ∃ slot ∈ record.slots, slot.name = name ∧ slot.given draft = false ∧ slot.mayEnd = false

theorem slot?_of_mem (nodup : record.names.Nodup) {slot : Slot δ} (mem : slot ∈ record.slots) :
    record.slot? slot.name = some slot := by
  cases found : record.slot? slot.name with
  | none => exact absurd (List.mem_map_of_mem mem) (slot?_eq_none_iff.mp found)
  | some other =>
    obtain ⟨hother, same⟩ := slot?_eq_some found
    rw [List.inj_on_of_nodup_map nodup hother mem same]

theorem Traces.given_of_takes (h : record.Traces) {slot : Slot δ} (mem : slot ∈ record.slots)
    {origin : Origin} {member : String × Source} (takes : record.Takes origin draft member next)
    (given : slot.given draft = true ∨ member.1 = slot.name) : slot.given next = true := by
  have found := slot?_of_mem h.nodup mem
  cases takes with
  | @field name source other _ _ hother free hfill =>
    by_cases same : name = slot.name
    · cases (same ▸ hother).symm.trans found
      exact (h.slots slot mem).gives hfill
    · rw [(h.apart.of_slot? hother found same).given hfill]
      exact given.resolve_right same
  | @other name _ _ unknown _ _ =>
    refine given.resolve_right fun same : name = slot.name => ?_
    cases (same ▸ unknown).symm.trans found

/-- A slot is given once a member with its name has been taken. -/
theorem Traces.given_of_takesAll (h : record.Traces) {slot : Slot δ} (mem : slot ∈ record.slots)
    {origin : Origin} {members : List (String × Source)}
    (all : record.TakesAll origin draft members next)
    (given : slot.given draft = true ∨ slot.name ∈ members.map Prod.fst) :
    slot.given next = true := by
  induction all with
  | nil => simpa using given
  | cons first _ ih =>
    rw [List.map_cons, List.mem_cons] at given
    refine ih ?_
    rcases given with given | same | later
    · exact .inl (h.given_of_takes mem first (.inl given))
    · exact .inl (h.given_of_takes mem first (.inr same.symm))
    · exact .inr later

/-- Why a record in memory does not take a member. -/
inductive Rejects (record : Record δ α) (draft : δ) (name : String) (source : Source) :
    ReadError → Prop
  | twice {offset : Nat} : Rejects record draft name source ⟨.duplicateField name, [], offset⟩
  | unknown {known : List String} {offset : Nat} :
      Rejects record draft name source ⟨.unknownField name known, [.key name], offset⟩
  | value {slot : Slot δ} {blamed : ReadError} : record.slot? name = some slot →
      slot.given draft = false → slot.fill .memory source draft = .error blamed →
      Rejects record draft name source (blamed.under (.key name))

theorem rejects_of_refusal? {key : Key} {name : String} {error : ReadError} (source : Source)
    (h : record.refusal? draft key name = some error) :
    record.Rejects draft name source error := by
  unfold refusal? at h
  split at h
  · split at h <;> cases h
    exact .twice
  · split at h <;> cases h
    exact .unknown

theorem other_memory (source : Source) : record.other .memory source = .ok () := by
  unfold other
  cases record.others <;> rfl

/-- If an object fails although it is written to its end, then it is for the first member that is
rejected. -/
theorem exists_of_readEntries_eq_error {entries : Entries} {members : List (String × Source)}
    {error : ReadError} (lists : entries.Lists members)
    (h : record.readEntries .memory draft entries = .error error) :
    ∃ before name source after next, members = before ++ (name, source) :: after ∧
      record.TakesAll .memory draft before next ∧ record.Rejects next name source error := by
  induction lists generalizing draft with
  | close => cases h
  | @entry key name value rest members readable lists ih =>
    rw [readEntries, Key.read_eq_ok_iff.mpr readable] at h
    simp only [bind, Except.bind] at h
    split at h
    · next refused =>
      cases h
      exact ⟨[], name, value, members, draft, rfl, .nil draft, rejects_of_refusal? value refused⟩
    · next welcome =>
      obtain ⟨free, open_⟩ := refusal?_eq_none_iff.mp welcome
      split at h
      · next slot hslot =>
        cases hfill : slot.fill .memory value draft with
        | error blamed =>
          rw [hfill] at h
          cases h
          exact ⟨[], name, value, members, draft, rfl, .nil draft,
            .value hslot (free slot hslot) hfill⟩
        | ok filled =>
          rw [hfill] at h
          obtain ⟨before, name', source, after, next, rfl, taken, rejects⟩ := ih h
          exact ⟨(name, value) :: before, name', source, after, next, rfl,
            .cons (.field hslot (free slot hslot) hfill) taken, rejects⟩
      · next unknown =>
        rw [other_memory] at h
        obtain ⟨before, name', source, after, next, rfl, taken, rejects⟩ := ih h
        exact ⟨(name, value) :: before, name', source, after, next, rfl,
          .cons (.other unknown (open_ unknown) (other_memory value)) taken, rejects⟩

/-- If an array fails although it is written to its end, then it has the wrong length, or it fails
for the first item that is rejected. -/
theorem exists_of_readItems_eq_error {slots : List (Slot δ)} {place : Nat} {items : Items}
    {sources : List Source} {error : ReadError} (lists : items.Lists sources)
    (h : record.readItems .memory slots place draft items = .error error) :
    error.Plain ∨ ∃ earlier slot later before source after next blamed,
      slots = earlier ++ slot :: later ∧ sources = before ++ source :: after ∧
      earlier.length = before.length ∧ Slot.FilledBy .memory earlier draft before next ∧
      slot.fill .memory source next = .error blamed ∧
      error = blamed.under (.index (place + before.length)) := by
  induction slots generalizing place draft items sources with
  | nil =>
    cases lists with
    | close => cases h
    | item =>
      cases h
      exact .inl (ReadError.plain_invalidLength ..)
  | cons slot slots ih =>
    cases lists with
    | close stop =>
      rw [readItems] at h
      split_ifs at h
      · rcases ih (.close stop) h with plain | ⟨_, _, _, before, _, _, _, _, _, hsources, _⟩
        · exact .inl plain
        · exact absurd hsources.symm (List.append_ne_nil_of_right_ne_nil before (List.cons_ne_nil _ _))
      · cases h
        exact .inl (ReadError.plain_invalidLength ..)
    | @item value rest sources lists =>
      rw [readItems] at h
      cases hfill : slot.fill .memory value draft with
      | error blamed =>
        rw [hfill] at h
        cases h
        exact .inr ⟨[], slot, slots, [], value, sources, draft, blamed, rfl, rfl, rfl,
          .ended (List.forall_mem_nil _), hfill, rfl⟩
      | ok filled =>
        rw [hfill] at h
        rcases ih lists h with plain |
          ⟨earlier, slot', later, before, source, after, next, blamed, rfl, rfl, same, taken, rest⟩
        · exact .inl plain
        · refine .inr ⟨slot :: earlier, slot', later, value :: before, source, after, next, blamed,
            rfl, rfl, by rw [List.length_cons, List.length_cons, same], .item hfill taken,
            rest.1, ?_⟩
          rw [rest.2, List.length_cons, Nat.add_right_comm, Nat.add_assoc]

end Record

namespace Slot

/-- Items in other slots leave a slot as it is. -/
theorem FilledBy.given_eq {origin : Origin} {slots : List (Slot δ)} {slot : Slot δ}
    {draft final : δ} {sources : List Source} (apart : ∀ other ∈ slots, other.Apart slot)
    (h : FilledBy origin slots draft sources final) : slot.given final = slot.given draft := by
  induction h with
  | ended => rfl
  | item hfill _ ih =>
    obtain ⟨first, others⟩ := List.forall_mem_cons.mp apart
    rw [ih others, first.given hfill]

/-- An array that is long enough gives each slot that is asked for. -/
theorem FilledBy.given {origin : Origin} {slots : List (Slot δ)} {draft final : δ}
    {sources : List Source} (apart : slots.Pairwise Slot.Apart)
    (gives : ∀ slot ∈ slots, slot.Traces) (h : FilledBy origin slots draft sources final) :
    ∀ slot ∈ slots, slot.mayEnd = false → slot.given final = true := by
  induction h with
  | ended mayEnd =>
    intro slot mem asked
    rw [mayEnd slot mem] at asked
    cases asked
  | item hfill later ih =>
    obtain ⟨first, others⟩ := List.pairwise_cons.mp apart
    obtain ⟨gives, givesOthers⟩ := List.forall_mem_cons.mp gives
    refine List.forall_mem_cons.mpr ⟨fun _ => ?_, ih others givesOthers⟩
    rw [later.given_eq fun other mem => (first other mem).symm]
    exact gives.gives hfill

end Slot

namespace ReadError.Traced

variable {record : Record δ α} {slot : Slot δ} {read : Reader β} {value : Json}
  {blamed : ReadError} {draft : δ}

theorem member {members : Members} {before after : List (String × Source)} {name : String}
    (valid : (Json.object members).Unambiguous)
    (listed : members.map (fun member => (member.1, Source.ofJson member.2)) =
      before ++ (name, .ofJson value) :: after)
    (mem : (name, value) ∈ members) (taken : record.TakesAll .memory record.blank before draft)
    (hslot : record.slot? name = some slot) (free : slot.given draft = false)
    (reads : slot.ReadsBy read) (h : blamed.Traced read value) :
    (blamed.under (.key name)).Traced record.read (.object members) := by
  cases h with
  | part leads resolves blames about =>
    have lists := Entries.lists_ofList members
    rw [listed] at lists
    have entered : Origin.memory.enter 0 = .ok .memory := rfl
    have leads : Leads _ .memory _ record.read .memory (.ofJson (.object members)) _ :=
      .member entered lists taken hslot free reads leads
    refine .part leads ?_ blames about
    have child : (Json.object members).child? name = some value :=
      Members.get?_of_mem valid.nodup mem
    have segments : ∀ path, PathStep.segments (.key name :: path) =
      name :: PathStep.segments path := fun _ => rfl
    rw [segments, Json.resolve?_cons, child, Option.bind_some, resolves]

theorem place {earlier later : List (Slot δ)} {front rest : List Json}
    (slots : record.slots = earlier ++ slot :: later) (same : earlier.length = front.length)
    (filled : Slot.FilledBy .memory earlier record.blank (front.map Source.ofJson) draft)
    (reads : slot.ReadsBy read) (h : blamed.Traced read value) :
    (blamed.under (.index front.length)).Traced record.read
      (.array (front ++ value :: rest)) := by
  cases h with
  | part leads resolves blames about =>
    have lists := Items.lists_ofList (front ++ value :: rest)
    rw [List.map_append, List.map_cons] at lists
    have entered : Origin.memory.enter 0 = .ok .memory := rfl
    have leads := Leads.place entered lists slots (by rw [same, List.length_map]) filled reads leads
    rw [List.length_map] at leads
    exact .part leads (Json.resolve?_item resolves) blames about

end ReadError.Traced

namespace Record

variable {record : Record δ α}

theorem complete_eq_error {draft : δ} {stop : Nat} {error : ReadError}
    (h : record.complete draft stop = .error error) :
    ∃ name, record.finish draft = .error name ∧ error = ⟨.missingField name, [], stop⟩ := by
  unfold complete at h
  cases hfinish : record.finish draft with
  | ok a =>
    rw [hfinish] at h
    cases h
  | error name =>
    rw [hfinish] at h
    cases h
    exact ⟨name, rfl, rfl⟩

theorem Traces.ofEntries (h : record.Traces) {members : Members} {error : ReadError}
    (valid : (Json.object members).Unambiguous)
    (fails : record.read .memory (.ofJson (.object members)) = .error error) :
    error.Traced record.read (.object members) := by
  have lists := Entries.lists_ofList members
  have opened : record.ofEntries .memory (Entries.ofList members) = .error error := fails
  rcases bind_eq_error.mp opened with rejected | ⟨⟨draft, stop⟩, taken, incomplete⟩
  · obtain ⟨before, name, source, after, next, hsplit, taken, rejects⟩ :=
      exists_of_readEntries_eq_error lists rejected
    cases rejects with
    | twice => exact ReadError.traced_whole fails (.whole ⟨rfl, nofun, nofun⟩)
    | unknown => exact ReadError.traced_whole fails .unknown
    | value hslot free hfill =>
      obtain ⟨front, ⟨name, value⟩, rest, rfl, rfl, hmember⟩ := exists_of_map_eq hsplit
      obtain ⟨rfl, rfl⟩ := Prod.mk.inj hmember
      have mem : (name, value) ∈ front ++ (name, value) :: rest := by simp
      obtain ⟨β, read, reads, traces⟩ := (h.slots _ (slot?_eq_some hslot).1).reads
      exact (traces value _ (valid.of_mem mem) (reads.fill_eq_error_iff.mp hfill)).member valid
        hsplit mem taken hslot free reads
  · obtain ⟨listed, lists', -, all⟩ := readEntries_eq_ok_iff.mp taken
    obtain rfl := lists.unique lists'
    obtain ⟨name, hfinish, rfl⟩ := complete_eq_error incomplete
    obtain ⟨slot, mem, rfl, missing, -⟩ := h.misses draft name hfinish
    refine ReadError.traced_whole fails (.missing ?_ (h.unticked _ (List.mem_map_of_mem mem)))
    refine Members.get?_eq_none_iff.mpr fun present => ?_
    have given : slot.given draft = true :=
      h.given_of_takesAll mem all (.inr (by simpa [Members.names] using present))
    cases missing.symm.trans given

theorem Traces.ofItems (h : record.Traces) {values : List Json} {error : ReadError}
    (valid : (Json.array values).Unambiguous)
    (fails : record.read .memory (.ofJson (.array values)) = .error error) :
    error.Traced record.read (.array values) := by
  have lists := Items.lists_ofList values
  have opened : record.ofItems .memory (Items.ofList values) = .error error := fails
  rcases bind_eq_error.mp opened with rejected | ⟨⟨draft, stop⟩, taken, incomplete⟩
  · rcases exists_of_readItems_eq_error lists rejected with plain |
      ⟨earlier, slot, later, before, source, after, next, blamed, slots, hsplit, same, filled,
        hfill, rfl⟩
    · exact ReadError.traced_whole fails (.whole plain)
    · obtain ⟨front, value, rest, rfl, rfl, rfl⟩ := exists_of_map_eq hsplit
      rw [List.length_map] at same
      obtain ⟨β, read, reads, traces⟩ := (h.slots slot (by simp [slots])).reads
      have blames := reads.fill_eq_error_iff.mp hfill
      rw [List.length_map, Nat.zero_add]
      exact (traces value _ (valid.of_item (by simp)) blames).place slots same filled reads
  · obtain ⟨sources, -, -, filled⟩ := readItems_eq_ok_iff.mp taken
    -- An array that is too short has been rejected before.
    obtain ⟨name, hfinish, -⟩ := complete_eq_error incomplete
    obtain ⟨slot, mem, -, missing, asked⟩ := h.misses draft name hfinish
    have given := filled.given h.apart h.slots slot mem asked
    cases missing.symm.trans given

/-- A record of such slots traces its errors. -/
theorem Traces.read (h : record.Traces) : Reader.Traces record.read := by
  intro value error valid fails
  cases value with
  | object members => exact h.ofEntries valid fails
  | array values => exact h.ofItems valid fails
  | _ =>
    cases fails
    exact ReadError.traced_whole rfl (.whole (Reader.plain_mismatch _ _))

end Record

end SchemaDoc
