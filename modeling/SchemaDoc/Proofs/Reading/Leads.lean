import SchemaDoc.Proofs.Reading.Records

/-!
# Parts that readers hand on

A reader of lists or records hands the parts of a source to other readers, one after the other, as
long as these accept them. `Leads` tells which reader gets a part at the end of a path, after all
parts before it have been accepted. If that reader fails, then so does the outermost one, with the
same error at the end of the path.
-/
namespace SchemaDoc

variable {α β δ : Type}

/-- The slot is filled with what the reader makes of a source, and fails where the reader does. -/
def Slot.ReadsBy (slot : Slot δ) (read : Reader β) : Prop :=
  ∃ set : β → δ → δ, ∀ origin source draft,
    slot.fill origin source draft = (read origin source).map (set · draft)

theorem Slot.readsBy_of (name : String) (get : δ → Option β) (set : β → δ → δ) (mayEnd : Bool)
    (read : Reader β) : (Slot.of name get set mayEnd read).ReadsBy read :=
  ⟨set, fun _ _ _ => rfl⟩

theorem Slot.ReadsBy.fill_eq_error_iff {slot : Slot δ} {read : Reader β} (h : slot.ReadsBy read)
    {origin : Origin} {source : Source} {draft : δ} {error : ReadError} :
    slot.fill origin source draft = .error error ↔ read origin source = .error error := by
  obtain ⟨set, hset⟩ := h
  rw [hset]
  cases read origin source <;> simp [Except.map]

/-- The error of a part as the error of the source in which a path leads to the part. -/
def ReadError.underAll (path : List PathStep) (error : ReadError) : ReadError :=
  { error with path := path ++ error.path }

/-- The segments that a path has in a failure tree. -/
def PathStep.segments (path : List PathStep) : List String := path.filterMap segment?

/-- The inner reader gets the part of the source that stands at the end of the path. -/
inductive Leads (inner : Reader β) (innerOrigin : Origin) (part : Source) :
    {α : Type} → Reader α → Origin → Source → List PathStep → Prop
  | here : Leads inner innerOrigin part inner innerOrigin part []
  | item {α : Type} {read : Reader α} {origin opened : Origin} {start : Nat} {items : Items}
      {before after : List Source} {source : Source} {path : List PathStep} :
      origin.enter start = .ok opened → items.Lists (before ++ source :: after) →
      (∀ earlier ∈ before, ∃ a, read opened earlier = .ok a) →
      Leads inner innerOrigin part read opened source path →
      Leads inner innerOrigin part (Reader.list read) origin (.array start items)
        (.index before.length :: path)
  | member {α δ γ : Type} {record : Record δ α} {slot : Slot δ} {read : Reader γ}
      {origin opened : Origin} {start : Nat} {entries : Entries}
      {before after : List (String × Source)} {name : String} {source : Source} {draft : δ}
      {path : List PathStep} :
      origin.enter start = .ok opened → entries.Lists (before ++ (name, source) :: after) →
      record.TakesAll opened record.blank before draft →
      record.slot? name = some slot → slot.given draft = false → slot.ReadsBy read →
      Leads inner innerOrigin part read opened source path →
      Leads inner innerOrigin part record.read origin (.object start entries) (.key name :: path)
  | place {α δ γ : Type} {record : Record δ α} {earlier later : List (Slot δ)} {slot : Slot δ}
      {read : Reader γ} {origin opened : Origin} {start : Nat} {items : Items}
      {before after : List Source} {source : Source} {draft : δ} {path : List PathStep} :
      origin.enter start = .ok opened → items.Lists (before ++ source :: after) →
      record.slots = earlier ++ slot :: later → earlier.length = before.length →
      Slot.FilledBy opened earlier record.blank before draft → slot.ReadsBy read →
      Leads inner innerOrigin part read opened source path →
      Leads inner innerOrigin part record.read origin (.array start items)
        (.index before.length :: path)

/-! ## The first part that is rejected -/

/-- The first item that is rejected makes the list fail. -/
theorem Reader.items_eq_error {read : Reader α} {origin : Origin} {written : Items}
    {before after : List Source} {source : Source} {error : ReadError}
    (lists : written.Lists (before ++ source :: after))
    (accepted : ∀ earlier ∈ before, ∃ a, read origin earlier = .ok a)
    (rejected : read origin source = .error error) (place : Nat) :
    items read origin place written = .error (error.under (.index (place + before.length))) := by
  induction before generalizing written place with
  | nil =>
    cases lists with
    | item _ =>
      rw [items, rejected]
      rfl
  | cons first rest ih =>
    cases lists with
    | item lists =>
      obtain ⟨⟨a, ha⟩, accepted⟩ := List.forall_mem_cons.mp accepted
      have later : place + 1 + rest.length = place + (first :: rest).length := by
        rw [List.length_cons]
        omega
      rw [items, ha, ih lists accepted, later]
      rfl

namespace Record

variable {record : Record δ α} {origin : Origin} {draft next : δ}

theorem readEntries_of_takes {key : Key} {name : String} {value : Source} {rest : Entries}
    (readable : key.name = .ok name) (takes : record.Takes origin draft (name, value) next) :
    record.readEntries origin draft (.entry key value rest) =
      record.readEntries origin next rest := by
  rw [readEntries, Key.read_eq_ok_iff.mpr readable]
  cases takes with
  | field hslot free hfill =>
    have welcome : record.refusal? draft key name = none :=
      refusal?_eq_none_iff.mpr (by simp [hslot, free])
    simp only [bind, Except.bind, welcome, hslot, hfill]
    rfl
  | other unknown open_ hother =>
    have welcome : record.refusal? draft key name = none :=
      refusal?_eq_none_iff.mpr (by simp [unknown, open_])
    simp only [bind, Except.bind, welcome, unknown, hother]
    rfl

/-- After members that are taken, reading goes on with the next one. -/
theorem readEntries_after {entries : Entries} {before after : List (String × Source)}
    {member : String × Source} (lists : entries.Lists (before ++ member :: after))
    (taken : record.TakesAll origin draft before next) :
    ∃ key rest, key.name = .ok member.1 ∧ rest.Lists after ∧
      record.readEntries origin draft entries =
        record.readEntries origin next (.entry key member.2 rest) := by
  induction taken generalizing entries with
  | nil =>
    cases lists with
    | entry readable lists => exact ⟨_, _, readable, lists, rfl⟩
  | cons first _ ih =>
    cases lists with
    | entry readable lists =>
      rw [readEntries_of_takes readable first]
      exact ih lists

/-- The first member whose value is rejected makes the object fail. -/
theorem readEntries_eq_error {entries : Entries} {before after : List (String × Source)}
    {name : String} {value : Source} {slot : Slot δ} {error : ReadError}
    (lists : entries.Lists (before ++ (name, value) :: after))
    (taken : record.TakesAll origin draft before next) (hslot : record.slot? name = some slot)
    (free : slot.given next = false) (rejected : slot.fill origin value next = .error error) :
    record.readEntries origin draft entries = .error (error.under (.key name)) := by
  obtain ⟨key, rest, readable, -, goes⟩ := readEntries_after lists taken
  have welcome : record.refusal? next key name = none :=
    refusal?_eq_none_iff.mpr (by simp [hslot, free])
  rw [goes, readEntries, Key.read_eq_ok_iff.mpr readable]
  simp only [bind, Except.bind, welcome, hslot, rejected]
  rfl

/-- A member that a closed record does not know makes the object fail. -/
theorem readEntries_unknown {entries : Entries} {before after : List (String × Source)}
    {name : String} {value : Source} (closed : record.others = .refused)
    (lists : entries.Lists (before ++ (name, value) :: after))
    (taken : record.TakesAll origin draft before next) (unknown : record.slot? name = none) :
    ∃ offset, record.readEntries origin draft entries =
      .error ⟨.unknownField name record.names, [.key name], offset⟩ := by
  obtain ⟨key, rest, readable, -, goes⟩ := readEntries_after lists taken
  refine ⟨key.stop, ?_⟩
  rw [goes, readEntries, Key.read_eq_ok_iff.mpr readable]
  simp only [bind, Except.bind, refusal?, unknown, closed]
  rfl

/-- The first item that is rejected makes the array fail. -/
theorem readItems_eq_error {earlier later : List (Slot δ)} {slot : Slot δ} {items : Items}
    {before after : List Source} {value : Source} {error : ReadError}
    (lists : items.Lists (before ++ value :: after)) (same : earlier.length = before.length)
    (filled : Slot.FilledBy origin earlier draft before next)
    (rejected : slot.fill origin value next = .error error) (place : Nat) :
    record.readItems origin (earlier ++ slot :: later) place draft items =
      .error (error.under (.index (place + before.length))) := by
  induction filled generalizing items place with
  | ended =>
    obtain rfl := List.length_eq_zero_iff.mp same
    cases lists with
    | item =>
      rw [List.nil_append, readItems, rejected]
      rfl
  | @item _ _ _ sources _ _ _ fill _ ih =>
    cases lists with
    | item lists =>
      have shift : place + 1 + sources.length = place + (sources.length + 1) := by omega
      rw [List.cons_append, readItems, fill, List.length_cons, ← shift,
        ← ih lists (Nat.succ.inj same) rejected (place + 1)]
      rfl

end Record

/-- What goes wrong with the part goes wrong with the source, at the end of the path. -/
theorem Leads.eq_error {inner : Reader β} {innerOrigin : Origin} {part : Source} {read : Reader α}
    {origin : Origin} {source : Source} {path : List PathStep} {error : ReadError}
    (leads : Leads inner innerOrigin part read origin source path)
    (rejected : inner innerOrigin part = .error error) :
    read origin source = .error (error.underAll path) := by
  induction leads with
  | here => exact rejected
  | item entered lists accepted _ ih =>
    rw [Reader.list, entered]
    exact (Reader.items_eq_error lists accepted ih 0).trans (by rw [Nat.zero_add]; rfl)
  | member entered lists taken hslot free reads _ ih =>
    rw [Record.read, entered]
    simp only [bind, Except.bind, Record.ofEntries, Record.readEntries_eq_error lists taken hslot
      free (reads.fill_eq_error_iff.mpr ih)]
    rfl
  | place entered lists slots same filled reads _ ih =>
    rw [Record.read, entered]
    simp only [bind, Except.bind, Record.ofItems, slots, Record.readItems_eq_error lists same filled
      (reads.fill_eq_error_iff.mpr ih), Nat.zero_add]
    rfl

end SchemaDoc
