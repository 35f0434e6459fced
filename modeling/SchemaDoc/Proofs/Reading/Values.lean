import SchemaDoc.Proofs.InStep
import SchemaDoc.Proofs.Json.Members
import SchemaDoc.Proofs.Projection.Coherence
import SchemaDoc.Proofs.Reading.Ensures
import SchemaDoc.Proofs.Source.Places

/-!
# Sources that are values

A source that can be read as a value is written to its end at every level. Without its places it is
the value in memory, as long as no object in it repeats a name.
-/
namespace SchemaDoc

/-- The part stands in the source, one level further in. -/
inductive Source.Part : Source → Source → Prop
  | item {start : Nat} {items : Items} {sources : List Source} {part : Source} :
      items.Lists sources → part ∈ sources → Part (.array start items) part
  | member {start : Nat} {entries : Entries} {members : List (String × Source)}
      {member : String × Source} :
      entries.Lists members → member ∈ members → Part (.object start entries) member.2

/-- The source begins with a bracket or a brace. -/
def Source.Opens : Source → Prop
  | .array .. => True
  | .object .. => True
  | _ => False

/-- The source can be read as a value. -/
def Source.Readable (origin : Origin) (source : Source) : Prop :=
  ∃ value, Reader.json origin source = .ok value

theorem Source.Part.depth_lt {source part : Source} (h : source.Part part) :
    part.depth < source.depth := by
  cases h with
  | item lists mem => exact Nat.lt_succ_of_le (lists.depth_le part mem)
  | member lists mem => exact Nat.lt_succ_of_le (lists.depth_le _ mem)

theorem Source.Part.distinct {source part : Source} (h : source.Part part)
    (distinct : source.Distinct) : part.Distinct := by
  cases h with
  | item lists mem => exact lists.distinct distinct part mem
  | member lists mem => exact lists.distinct distinct.2 _ mem

/-- What passes from the parts of every source to the source holds of all sources. -/
theorem Source.induction_on_parts {motive : Source → Prop}
    (step : ∀ source, (∀ part, source.Part part → motive part) → motive source)
    (source : Source) : motive source :=
  step source fun part _ => induction_on_parts step part
termination_by source.depth
decreasing_by
  next h => exact h.depth_lt

namespace Reader

variable {α : Type} {read : Reader α} {origin : Origin}

theorem buffered_eq_ok_iff {stop : Nat} {result : Except ReadError α} {a : α} :
    buffered stop result = .ok a ↔ result = .ok a := mapError_eq_ok

theorem items_eq_ok_iff {place : Nat} {written : Items} {values : List α} :
    items read origin place written = .ok values ↔ ∃ sources, written.Lists sources ∧
      List.Forall₂ (fun source a => read origin source = .ok a) sources values := by
  fun_induction Reader.items read origin place written generalizing values with
  | case1 place value rest ih =>
    constructor
    · intro h
      obtain ⟨a, ha, h⟩ := bind_eq_ok.mp h
      obtain ⟨others, hothers, h⟩ := bind_eq_ok.mp h
      cases h
      obtain ⟨sources, lists, hsources⟩ := ih.mp hothers
      exact ⟨value :: sources, .item lists, .cons (PathStep.into_eq_ok.mp ha) hsources⟩
    · rintro ⟨_, lists, h⟩
      cases lists with
      | item lists =>
        cases h with
        | cons ha hothers =>
          exact bind_eq_ok.mpr ⟨_, PathStep.into_eq_ok.mpr ha,
            bind_eq_ok.mpr ⟨_, ih.mpr ⟨_, lists, hothers⟩, rfl⟩⟩
  | case2 place written noItem =>
    constructor
    · intro h
      obtain ⟨stop, ended, rfl⟩ := map_eq_ok.mp h
      exact ⟨[], Items.lists_nil_of_ended noItem ended, .nil⟩
    · rintro ⟨_, lists, h⟩
      cases lists with
      | close =>
        cases h
        rfl
      | item => exact absurd rfl (noItem _ _)

theorem entries_eq_ok_iff {written : Entries} {values : List (String × α)} :
    entries read origin written = .ok values ↔ ∃ members, written.Lists members ∧
      List.Forall₂ (fun member value => value.1 = member.1 ∧ read origin member.2 = .ok value.2)
        members values := by
  fun_induction Reader.entries read origin written generalizing values with
  | case1 key value rest ih =>
    constructor
    · intro h
      obtain ⟨name, hname, h⟩ := bind_eq_ok.mp h
      obtain ⟨a, ha, h⟩ := bind_eq_ok.mp h
      obtain ⟨others, hothers, h⟩ := bind_eq_ok.mp h
      cases h
      obtain ⟨members, lists, hmembers⟩ := ih.mp hothers
      exact ⟨(name, value) :: members, .entry (Key.read_eq_ok_iff.mp hname) lists,
        .cons ⟨rfl, PathStep.into_eq_ok.mp ha⟩ hmembers⟩
    · rintro ⟨_, lists, h⟩
      cases lists with
      | entry readable lists =>
        cases h with
        | @cons _ value' _ _ first hothers =>
          obtain ⟨name', a⟩ := value'
          obtain ⟨rfl, ha⟩ := first
          exact bind_eq_ok.mpr ⟨_, Key.read_eq_ok_iff.mpr readable, bind_eq_ok.mpr ⟨a,
            PathStep.into_eq_ok.mpr ha, bind_eq_ok.mpr ⟨_, ih.mpr ⟨_, lists, hothers⟩, rfl⟩⟩⟩
  | case2 written noEntry =>
    constructor
    · intro h
      obtain ⟨stop, ended, rfl⟩ := map_eq_ok.mp h
      exact ⟨[], Entries.lists_nil_of_ended noEntry ended, .nil⟩
    · rintro ⟨_, lists, h⟩
      cases lists with
      | close =>
        cases h
        rfl
      | entry => exact absurd rfl (noEntry _ _ _)

theorem jsonItems_eq_items (place : Nat) (written : Items) :
    jsonItems origin place written = items json origin place written := by
  fun_induction Reader.items json origin place written with
  | case1 place value rest ih => simp only [jsonItems, ih]
  | case2 place written noItem =>
    cases written with
    | item value rest => exact absurd rfl (noItem value rest)
    | _ => rfl

theorem jsonEntries_eq_entries (written : Entries) :
    jsonEntries origin written = entries json origin written := by
  fun_induction Reader.entries json origin written with
  | case1 key value rest ih => simp only [jsonEntries, ih]
  | case2 written noEntry =>
    cases written with
    | entry key value rest => exact absurd rfl (noEntry key value rest)
    | _ => rfl

theorem json_array_eq_ok_iff {start : Nat} {written : Items} {value : Json} :
    json origin (.array start written) = .ok value ↔ ∃ inner sources values,
      origin.enter start = .ok inner ∧ written.Lists sources ∧
      List.Forall₂ (fun source value => json inner source = .ok value) sources values ∧
      value = .array values := by
  simp only [json, jsonItems_eq_items, bind_eq_ok, items_eq_ok_iff]
  constructor
  · rintro ⟨inner, entered, values, ⟨sources, lists, each⟩, h⟩
    cases h
    exact ⟨inner, sources, values, entered, lists, each, rfl⟩
  · rintro ⟨inner, sources, values, entered, lists, each, rfl⟩
    exact ⟨inner, entered, values, ⟨sources, lists, each⟩, rfl⟩

theorem json_object_eq_ok_iff {start : Nat} {written : Entries} {value : Json} :
    json origin (.object start written) = .ok value ↔ ∃ inner members values,
      origin.enter start = .ok inner ∧ written.Lists members ∧
      List.Forall₂ (fun member value => value.1 = member.1 ∧ json inner member.2 = .ok value.2)
        members values ∧ value = .object (Members.ofList values) := by
  simp only [json, jsonEntries_eq_entries, bind_eq_ok, entries_eq_ok_iff]
  constructor
  · rintro ⟨inner, entered, values, ⟨members, lists, each⟩, h⟩
    cases h
    exact ⟨inner, members, values, entered, lists, each, rfl⟩
  · rintro ⟨inner, members, values, entered, lists, each, rfl⟩
    exact ⟨inner, entered, values, ⟨members, lists, each⟩, rfl⟩

end Reader

/-! ## Readable sources -/

namespace Source

variable {origin : Origin} {source : Source}

theorem readable_array_iff {start : Nat} {items : Items} :
    (array start items).Readable origin ↔ ∃ inner sources, origin.enter start = .ok inner ∧
      items.Lists sources ∧ ∀ source ∈ sources, source.Readable inner := by
  constructor
  · rintro ⟨value, h⟩
    obtain ⟨inner, sources, values, entered, lists, each, -⟩ := Reader.json_array_eq_ok_iff.mp h
    refine ⟨inner, sources, entered, lists, fun source mem => ?_⟩
    obtain ⟨value, -, h⟩ := exists_of_mem_right each.flip mem
    exact ⟨value, h⟩
  · rintro ⟨inner, sources, entered, lists, each⟩
    obtain ⟨values, each⟩ := exists_forall₂ each
    exact ⟨_, Reader.json_array_eq_ok_iff.mpr ⟨inner, sources, values, entered, lists, each, rfl⟩⟩

theorem readable_object_iff {start : Nat} {entries : Entries} :
    (object start entries).Readable origin ↔ ∃ inner members, origin.enter start = .ok inner ∧
      entries.Lists members ∧ ∀ member ∈ members, member.2.Readable inner := by
  constructor
  · rintro ⟨value, h⟩
    obtain ⟨inner, members, values, entered, lists, each, -⟩ := Reader.json_object_eq_ok_iff.mp h
    refine ⟨inner, members, entered, lists, fun member mem => ?_⟩
    obtain ⟨value, -, -, h⟩ := exists_of_mem_right each.flip mem
    exact ⟨value.2, h⟩
  · rintro ⟨inner, members, entered, lists, each⟩
    have values : ∀ member ∈ members, ∃ value : String × Json,
        value.1 = member.1 ∧ Reader.json inner member.2 = .ok value.2 := by
      intro member mem
      obtain ⟨value, h⟩ := each member mem
      exact ⟨(member.1, value), rfl, h⟩
    obtain ⟨values, each⟩ := exists_forall₂ values
    exact ⟨_, Reader.json_object_eq_ok_iff.mpr ⟨inner, members, values, entered, lists, each, rfl⟩⟩

theorem readable_text_array_iff {room start : Nat} {items : Items} {sources : List Source}
    (lists : items.Lists sources) :
    (array start items).Readable (.text room) ↔
      0 < room ∧ ∀ source ∈ sources, source.Readable (.text (room - 1)) := by
  rw [readable_array_iff]
  constructor
  · rintro ⟨inner, _, entered, listed, each⟩
    obtain rfl := lists.unique listed
    cases room with
    | zero => cases entered
    | succ room =>
      cases entered
      exact ⟨Nat.succ_pos room, each⟩
  · rintro ⟨deep, each⟩
    cases room with
    | zero => cases deep
    | succ room => exact ⟨.text room, sources, rfl, lists, each⟩

theorem readable_text_object_iff {room start : Nat} {entries : Entries}
    {members : List (String × Source)} (lists : entries.Lists members) :
    (object start entries).Readable (.text room) ↔
      0 < room ∧ ∀ member ∈ members, member.2.Readable (.text (room - 1)) := by
  rw [readable_object_iff]
  constructor
  · rintro ⟨inner, _, entered, listed, each⟩
    obtain rfl := lists.unique listed
    cases room with
    | zero => cases entered
    | succ room =>
      cases entered
      exact ⟨Nat.succ_pos room, each⟩
  · rintro ⟨deep, each⟩
    cases room with
    | zero => cases deep
    | succ room => exact ⟨.text room, members, rfl, lists, each⟩

/-- The parts of a readable source are readable, with one level less to go. -/
theorem Readable.enter (h : source.Readable origin) (opens : source.Opens) :
    ∃ inner, origin.enter source.start = .ok inner ∧
      ∀ part, source.Part part → part.Readable inner := by
  cases source with
  | array start items =>
    obtain ⟨inner, sources, entered, lists, each⟩ := readable_array_iff.mp h
    refine ⟨inner, entered, fun part hpart => ?_⟩
    cases hpart with
    | item lists' mem => exact each part (lists.unique lists' ▸ mem)
  | object start entries =>
    obtain ⟨inner, members, entered, lists, each⟩ := readable_object_iff.mp h
    refine ⟨inner, entered, fun part hpart => ?_⟩
    cases hpart with
    | member lists' mem => exact each _ (lists.unique lists' ▸ mem)
  | _ => exact opens.elim

end Source

namespace Reader

variable {items : Items} {sources : List Source} {place : Nat}

/-- Readable items can be kept. -/
theorem exists_keepItems (lists : items.Lists sources)
    (each : ∀ source ∈ sources, ∀ room, origin = .text room → source.Readable origin) :
    ∃ stop, keepItems origin place items = .ok stop := by
  obtain ⟨stop, ended⟩ := lists.exists_ended
  cases origin with
  | text room =>
    obtain ⟨values, hvalues⟩ := exists_forall₂ fun source mem => each source mem room rfl
    have read : jsonItems (.text room) place items = .ok values := by
      rw [jsonItems_eq_items]
      exact items_eq_ok_iff.mpr ⟨sources, lists, hvalues⟩
    exact ⟨stop, bind_eq_ok.mpr ⟨values, read, ended⟩⟩
  | memory => exact ⟨stop, ended⟩
  | buffer => exact ⟨stop, ended⟩

/-- Items of a text that are kept are readable. -/
theorem readable_of_keepItems {room stop : Nat}
    (h : keepItems (.text room) place items = .ok stop) (lists : items.Lists sources) :
    ∀ source ∈ sources, source.Readable (.text room) := by
  intro source mem
  obtain ⟨values, read, -⟩ := bind_eq_ok.mp h
  rw [jsonItems_eq_items] at read
  obtain ⟨_, listed, each⟩ := items_eq_ok_iff.mp read
  obtain rfl := lists.unique listed
  obtain ⟨value, -, hvalue⟩ := exists_of_mem_right each.flip mem
  exact ⟨value, hvalue⟩

end Reader

theorem Items.Lists.skip {items : Items} {sources : List Source} (h : items.Lists sources)
    (each : ∀ source ∈ sources, source.skip = .ok ()) : items.skip = .ok () := by
  induction h with
  | close => rfl
  | item _ ih =>
    obtain ⟨first, rest⟩ := List.forall_mem_cons.mp each
    exact bind_eq_ok.mpr ⟨(), first, ih rest⟩

theorem Entries.Lists.skip {entries : Entries} {members : List (String × Source)}
    (h : entries.Lists members) (each : ∀ member ∈ members, member.2.skip = .ok ()) :
    entries.skip = .ok () := by
  induction h with
  | close => rfl
  | entry _ _ ih =>
    obtain ⟨first, rest⟩ := List.forall_mem_cons.mp each
    exact bind_eq_ok.mpr ⟨(), first, ih rest⟩

namespace Source

variable {origin : Origin} {source : Source}

/-- What can be read can be skipped. -/
theorem Readable.skip (h : source.Readable origin) : source.skip = .ok () := by
  induction source using Source.induction_on_parts generalizing origin with
  | step source ih =>
    cases source with
    | scalar => rfl
    | unreadable => rfl
    | array start items =>
      obtain ⟨inner, sources, -, lists, each⟩ := readable_array_iff.mp h
      exact lists.skip fun part mem => ih part (.item lists mem) (each part mem)
    | object start entries =>
      obtain ⟨inner, members, -, lists, each⟩ := readable_object_iff.mp h
      exact lists.skip fun member mem => ih member.2 (.member lists mem) (each member mem)
    | broken start first reading skipping =>
      obtain ⟨value, h⟩ := h
      cases h

end Source

/-! ## Values in memory -/

theorem Items.lists_ofList (items : List Json) :
    (Items.ofList items).Lists (items.map Source.ofJson) := by
  induction items with
  | nil => exact .close 0
  | cons item rest ih => exact .item ih

theorem Entries.lists_ofList (members : Members) :
    (Entries.ofList members).Lists (members.map fun member => (member.1, .ofJson member.2)) := by
  induction members with
  | nil => exact .close 0
  | cons member rest ih => exact .entry rfl ih

theorem Items.distinct_ofList {items : List Json}
    (each : ∀ item ∈ items, (Source.ofJson item).Distinct) : (Items.ofList items).Distinct := by
  induction items with
  | nil => trivial
  | cons item rest ih =>
    obtain ⟨first, rest⟩ := List.forall_mem_cons.mp each
    exact ⟨first, ih rest⟩

theorem Entries.distinct_ofList {members : Members}
    (each : ∀ member ∈ members, (Source.ofJson member.2).Distinct) :
    (Entries.ofList members).Distinct := by
  induction members with
  | nil => trivial
  | cons member rest ih =>
    obtain ⟨first, rest⟩ := List.forall_mem_cons.mp each
    exact ⟨first, ih rest⟩

theorem Source.distinct_ofJson {value : Json} (valid : value.Unambiguous) :
    (Source.ofJson value).Distinct := by
  induction valid with
  | array _ ih => exact Items.distinct_ofList ih
  | @object members nodup _ ih =>
    have names : (Entries.ofList members).names = members.names := by
      rw [(Entries.lists_ofList members).names_eq, List.map_map]
      rfl
    exact ⟨names ▸ nodup, Entries.distinct_ofList ih⟩
  | _ => trivial

/-- At least as many arrays and objects may be opened inside one another. -/
def Origin.Admits (origin : Origin) (depth : Nat) : Prop :=
  ∀ room, origin = .text room → depth ≤ room

theorem Origin.Admits.enter {origin : Origin} {depth : Nat} (h : origin.Admits (depth + 1))
    (start : Nat) : ∃ inner, origin.enter start = .ok inner ∧ inner.Admits depth := by
  cases origin with
  | text room =>
    cases room with
    | zero => exact absurd (h 0 rfl) (Nat.not_succ_le_zero depth)
    | succ room =>
      refine ⟨.text room, rfl, ?_⟩
      rintro _ ⟨⟩
      exact Nat.le_of_succ_le_succ (h _ rfl)
  | memory => exact ⟨.memory, rfl, nofun⟩
  | buffer => exact ⟨.buffer, rfl, nofun⟩

theorem Origin.Admits.mono {origin : Origin} {depth smaller : Nat} (h : origin.Admits depth)
    (le : smaller ≤ depth) : origin.Admits smaller :=
  fun room heq => Nat.le_trans le (h room heq)

theorem Items.Lists.unplaced_eq {items : Items} {sources : List Source} {values : List Json}
    (h : items.Lists sources)
    (each : List.Forall₂ (fun source value => (Source.ofJson value).Same source) sources values) :
    items.unplaced = (Items.ofList values).unplaced := by
  induction h generalizing values with
  | close =>
    cases each
    rfl
  | item _ ih =>
    cases each with
    | cons first rest => exact congrArg₂ Items.item first (ih rest)

theorem Entries.Lists.unplaced_eq {entries : Entries} {members : List (String × Source)}
    {values : Members} (h : entries.Lists members)
    (each : List.Forall₂ (fun member value => value.1 = member.1 ∧
      (Source.ofJson value.2).Same member.2) members values) :
    entries.unplaced = (Entries.ofList values).unplaced := by
  induction h generalizing values with
  | close =>
    cases each
    rfl
  | entry readable _ ih =>
    cases each with
    | @cons _ value _ _ first rest =>
      obtain ⟨name, value⟩ := value
      obtain ⟨rfl, same⟩ := first
      have later := ih rest
      simp only [Entries.unplaced, Entries.ofList, Key.unplaced, Key.ofName, readable, later]
      exact congrArg₂ (Entries.entry _) same rfl

namespace Source

variable {origin : Origin} {source : Source} {value : Json}

/-- A source that is a value but for its places is read as the value. -/
theorem json_eq_ok_of_same (valid : value.Unambiguous) (same : (ofJson value).Same source)
    (admits : origin.Admits source.depth) : Reader.json origin source = .ok value := by
  induction value using Json.induction_on_values generalizing origin source with
  | array items ih =>
    obtain ⟨start, items', rfl, inner⟩ := same.of_array
    obtain ⟨sources, lists, each⟩ := (Items.lists_ofList items).of_same inner
    obtain ⟨origin', entered, admits⟩ := admits.enter start
    rw [List.forall₂_map_left_iff] at each
    have valid : ∀ item ∈ items, item.Unambiguous := by
      cases valid with
      | array each => exact each
    refine Reader.json_array_eq_ok_iff.mpr ⟨origin', sources, items, entered, lists, ?_, rfl⟩
    refine (forall₂_mem_both each).flip.imp ?_
    rintro part item ⟨⟨mem, same⟩, hpart⟩
    exact ih item mem (valid item mem) same (admits.mono (lists.depth_le part hpart))
  | object members ih =>
    obtain ⟨start, entries, rfl, inner⟩ := same.of_object
    obtain ⟨parts, lists, each⟩ := (Entries.lists_ofList members).of_same inner
    obtain ⟨origin', entered, admits⟩ := admits.enter start
    rw [List.forall₂_map_left_iff] at each
    refine Reader.json_object_eq_ok_iff.mpr ⟨origin', parts, members, entered, lists, ?_, ?_⟩
    · refine (forall₂_mem_both each).flip.imp ?_
      rintro part member ⟨⟨mem, name, same⟩, hpart⟩
      exact ⟨name.symm, ih member mem (valid.of_mem mem) same
        (admits.mono (lists.depth_le part hpart))⟩
    · rw [Members.ofList_eq_self valid.nodup]
  | _ =>
    obtain ⟨start, stop, rfl⟩ := same.of_scalar
    rfl

/-- What is read as a value is the value but for its places, if no name is repeated. -/
theorem same_of_json (h : Reader.json origin source = .ok value) (distinct : source.Distinct) :
    (ofJson value).Same source ∧ value.Unambiguous := by
  induction source using Source.induction_on_parts generalizing origin value with
  | step source ih =>
    cases source with
    | scalar start stop scalar =>
      cases scalar <;> cases h
      · exact ⟨rfl, .null⟩
      · exact ⟨rfl, .bool _⟩
      · exact ⟨rfl, .number _⟩
      · exact ⟨rfl, .string _⟩
    | unreadable => cases h
    | broken => cases h
    | array start items =>
      obtain ⟨inner, sources, values, -, lists, each, rfl⟩ := Reader.json_array_eq_ok_iff.mp h
      have parts : List.Forall₂ (fun source value =>
          (ofJson value).Same source ∧ value.Unambiguous) sources values := by
        refine (forall₂_mem each).imp ?_
        rintro part value ⟨mem, h⟩
        exact ih part (.item lists mem) h (lists.distinct distinct part mem)
      constructor
      · exact congrArg (Source.array 0) (lists.unplaced_eq (parts.imp fun _ _ h => h.1))
      · refine .array fun value mem => ?_
        obtain ⟨part, -, -, valid⟩ := exists_of_mem_right parts mem
        exact valid
    | object start entries =>
      obtain ⟨inner, members, values, -, lists, each, rfl⟩ := Reader.json_object_eq_ok_iff.mp h
      have parts : List.Forall₂ (fun member value => value.1 = member.1 ∧
          (ofJson value.2).Same member.2 ∧ value.2.Unambiguous) members values := by
        refine (forall₂_mem each).imp ?_
        rintro member value ⟨mem, name, h⟩
        exact ⟨name, ih member.2 (.member lists mem) h (lists.distinct distinct.2 member mem)⟩
      have names : Members.names values = members.map Prod.fst :=
        map_eq_of_forall₂ (fun _ _ h => h.1) parts
      have nodup : Members.names values |>.Nodup := by
        rw [names, ← lists.names_eq]
        exact distinct.1
      rw [Members.ofList_eq_self nodup]
      constructor
      · exact congrArg (Source.object 0)
          (lists.unplaced_eq (parts.imp fun _ _ h => ⟨h.1, h.2.1⟩))
      · refine .object nodup fun value mem => ?_
        obtain ⟨part, -, -, -, valid⟩ := exists_of_mem_right parts mem
        exact valid

end Source

end SchemaDoc
