import Mathlib
import SchemaDoc.Proofs.Definition.Roles

/-!
# Files are read alike however members are ordered

A definition reads its annotations first and keeps all other members until its kind is known. So
neither the place of the kind among the members nor members of other kinds have an effect on what
is read. By induction on the depth this holds for all definitions inside one another.
-/
namespace SchemaDoc

open Reader

/-- The second source is rearranged from the first one, in which no name is repeated, and it is
nested to at most the given depth. -/
def Role.Arranged (depth : Nat) (role : Role) : SourceRelation := fun room source source' =>
  Source.Rearranged room role source source' ∧ source.Distinct ∧ source'.depth ≤ depth

namespace Role

variable {depth room : Nat} {role : Role} {source source' : Source}

theorem Arranged.same (h : plain.Arranged depth room source source') : source.Same source' :=
  h.1.plain

theorem Arranged.depth_lt (h : role.Arranged depth room source source') {part : Source}
    (inside : source'.Part part) : part.depth < depth :=
  Nat.lt_of_lt_of_le inside.depth_lt h.2.2

theorem Arranged.itemwise (h : (list role).Arranged depth room source source') :
    Itemwise (role.Arranged depth) room source source' := by
  rintro start items sources rfl lists
  obtain ⟨start', items', sources', rfl, lists', each⟩ := h.1.items lists
  refine ⟨start', items', sources', rfl, lists', (forall₂_mem_both each).imp ?_⟩
  rintro part part' ⟨⟨mem, arranged⟩, mem'⟩
  have shallow := h.depth_lt (.item lists' mem')
  exact ⟨arranged, lists.distinct h.2.1 part mem, Nat.le_of_lt shallow⟩

theorem Arranged.memberwise (h : (map role).Arranged depth room source source') :
    Memberwise (fun _ => role.Arranged depth) room source source' := by
  rintro start entries members rfl lists
  obtain ⟨start', entries', members', rfl, lists', each⟩ := h.1.entries lists
  refine ⟨start', entries', members', rfl, lists', (forall₂_mem_both each).imp ?_⟩
  rintro member member' ⟨⟨mem, name, arranged⟩, mem'⟩
  have shallow := h.depth_lt (.member lists' mem')
  exact ⟨name, arranged, lists.distinct h.2.1.2 member mem, Nat.le_of_lt shallow⟩

/-- The members of a record are arranged, one level further in. -/
theorem Arranged.members (h : role.Arranged (depth + 1) room source source') {start : Nat}
    {entries : Entries} {members : List (String × Source)} {known : List (String × Role)}
    (object : source = .object start entries) (lists : entries.Lists members)
    (knows : role.Knows members known) :
    ∃ start' entries' members', source' = .object start' entries' ∧ entries'.Lists members' ∧
      Rearranges (known.map Prod.fst) (fun name => (Role.of known name).Arranged depth)
        (room - 1) members members' := by
  subst object
  obtain ⟨start', entries', members', rfl, lists', rearranged⟩ := h.1.members h.2.1 lists knows
  refine ⟨start', entries', members', rfl, lists', rearranged.imp ?_⟩
  intro member mem member' mem' arranged
  have shallow := h.depth_lt (.member lists' mem')
  exact ⟨arranged, lists.distinct h.2.1.2 member mem, Nat.le_of_lt_succ shallow⟩

theorem Arranged.mono {smaller : Nat} (h : role.Arranged smaller room source source')
    (le : smaller ≤ depth) : role.Arranged depth room source source' :=
  ⟨h.1, h.2.1, Nat.le_trans h.2.2 le⟩

/-- A record with the same names under all circumstances is arranged. -/
theorem Arranged.recordwise (h : role.Arranged depth room source source')
    {known : List (String × Role)} (knows : ∀ members, role.Knows members known) :
    Recordwise (known.map Prod.fst) (fun name => (Role.of known name).Arranged depth) room
      source source' := by
  constructor
  · intro start entries members object lists
    exact (h.mono (Nat.le_succ depth)).members object lists (knows members)
  · rintro start items sources rfl lists short
    rw [List.length_map] at short
    obtain ⟨start', items', sources', rfl, lists', each⟩ := h.1.unnamedItems lists knows short
    refine ⟨start', items', sources', rfl, lists', (forall₂_mem_both each).imp ?_⟩
    rintro pair part' ⟨⟨mem, arranged⟩, mem'⟩
    have shallow := h.depth_lt (.item lists' mem')
    have mem := (List.of_mem_zip mem).2
    exact ⟨arranged, lists.distinct h.2.1 pair.2 mem, Nat.le_of_lt shallow⟩

theorem Arranged.depth_pos_of_object {start : Nat} {entries : Entries}
    (h : role.Arranged depth room (.object start entries) source') : 0 < depth := by
  have object : ∃ start' entries', source' = .object start' entries' := by
    cases h.1 with
    | same same =>
      obtain ⟨start', entries', object, -⟩ := same.of_object
      exact ⟨start', entries', object⟩
    | record => exact ⟨_, _, rfl⟩
    | map => exact ⟨_, _, rfl⟩
  obtain ⟨start', entries', rfl⟩ := object
  exact Nat.lt_of_lt_of_le (Nat.succ_pos _) h.2.2

/-- A definition that is present does not become absent, nor the other way round. -/
theorem Arranged.null_iff (h : role.Arranged depth room source source') :
    (∃ start stop, source' = .scalar start stop .null) ↔
      ∃ start stop, source = .scalar start stop .null := by
  cases h.1 with
  | same same => exact same.null_iff
  | _ => constructor <;> rintro ⟨_, _, ⟨⟩⟩

end Role

/-! ## Records -/

variable {depth : Nat} {known : List (String × Role)} {α δ : Type}

/-- Records transfer readings of rearranged members if their slots do. -/
theorem Record.transfers_of_known {record record' : Record δ α}
    (unknown : ∀ name, record.slot? name = none → Role.of known name = .plain)
    (slots : List.Forall₂ (fun slot slot' =>
      slot.Transfers ((Role.of known slot.name).Arranged depth) slot') record.slots record'.slots)
    (others : record'.others = record.others) (blank : record'.blank = record.blank)
    (finish : record'.finish = record.finish) :
    record.Transfers (fun name => (Role.of known name).Arranged depth) record' where
  slots := slots
  others := others
  blank := blank
  finish := finish
  other := by
    intro name room origin origin' source source' absent related matching h
    rw [unknown name absent] at related
    exact other_of_same others related.same matching h

theorem Record.of_eq_plain_of_slot? {record : Record δ α} (names : record.names = known.map Prod.fst)
    (name : String) (absent : record.slot? name = none) : Role.of known name = .plain :=
  Role.of_eq_plain (names ▸ slot?_eq_none_iff.mp absent)

/-- Readers of plain values. -/
theorem Reader.Transfers.plain {read read' : Reader α} (h : Transfers samePlaces read read') :
    Transfers (Role.plain.Arranged depth) read read' :=
  h.mono fun _ _ _ related => related.same

theorem Reader.Transfers.arrangedList {role : Role} {read read' : Reader α}
    (h : Transfers (role.Arranged depth) read read') :
    Transfers ((Role.list role).Arranged depth) (Reader.list read) (Reader.list read') :=
  h.list.mono fun _ _ _ => Role.Arranged.itemwise

theorem Reader.transfers_members : Transfers samePlaces members members := by
  have entries : Transfers samePlaces (Reader.map json) (Reader.map json) :=
    transfers_json.entriesMap.mono fun _ _ _ same => memberwise_of_same same fun _ _ _ _ same => same
  exact entries.map Members.ofList

theorem Constraint.record_transfers :
    Constraint.record.Transfers
      (fun name => (Role.of [("kind", .plain), ("hints", .plain)] name).Arranged depth)
      Constraint.record :=
  Record.transfers_of_known (Record.of_eq_plain_of_slot? rfl)
    (.cons (Slot.transfers_of transfers_string.plain)
      (.cons (Slot.transfers_of transfers_members.plain) .nil)) rfl rfl rfl

theorem Constraint.record_apart : Constraint.record.Apart := by
  simp [Record.Apart, Constraint.record, Slot.required, Slot.defaulted, Slot.apart_of]

theorem Constraint.transfers_read :
    Transfers (Role.constraint.Arranged depth) Constraint.read Constraint.read :=
  (Constraint.record_transfers.read Constraint.record_apart nofun).mono fun _ _ _ related =>
    related.recordwise .constraint

section

variable {read read' : Reader δ}

theorem Field.record_transfers (h : Transfers (Role.definition.Arranged depth) read read') :
    (Field.record read).Transfers (fun name => (Role.of
      [("name", .plain), ("type", .definition), ("optional", .plain)] name).Arranged depth)
      (Field.record read') :=
  Record.transfers_of_known (Record.of_eq_plain_of_slot? rfl)
    (.cons (Slot.transfers_of transfers_string.plain) (.cons (Slot.transfers_of h)
      (.cons (Slot.transfers_of transfers_bool.plain) .nil))) rfl rfl rfl

theorem Field.record_apart (read : Reader δ) : (Field.record read).Apart := by
  simp [Record.Apart, Field.record, Slot.required, Slot.defaulted, Slot.apart_of]

theorem Field.transfers_read (h : Transfers (Role.definition.Arranged depth) read read') :
    Transfers (Role.field.Arranged depth) (Field.record read).read (Field.record read').read :=
  ((Field.record_transfers h).read (Field.record_apart read') nofun).mono fun _ _ _ related =>
    related.recordwise .field

theorem Element.record_transfers (h : Transfers (Role.definition.Arranged depth) read read') :
    (Element.record read).Transfers (fun name => (Role.of
      [("type", .definition), ("optional", .plain)] name).Arranged depth)
      (Element.record read') :=
  Record.transfers_of_known (Record.of_eq_plain_of_slot? rfl)
    (.cons (Slot.transfers_of h)
      (.cons (Slot.transfers_of transfers_bool.plain) .nil)) rfl rfl rfl

theorem Element.record_apart (read : Reader δ) : (Element.record read).Apart := by
  simp [Record.Apart, Element.record, Slot.required, Slot.defaulted, Slot.apart_of]

theorem Element.transfers_read (h : Transfers (Role.definition.Arranged depth) read read') :
    Transfers (Role.element.Arranged depth) (Element.record read).read
      (Element.record read').read :=
  ((Element.record_transfers h).read (Element.record_apart read') nofun).mono
    fun _ _ _ related => related.recordwise .element

theorem Form.names_recordOf (read : Reader δ) (kind : Kind) :
    (recordOf read kind).names = (Role.ofKind kind).map Prod.fst := by
  cases kind <;> rfl

/-- A form knows no other names than the definitions of its kind. -/
theorem Form.names_recordOf_subset (read : Reader δ) (kind : Kind) :
    ∀ name ∈ (recordOf read kind).names,
      name ∈ (Role.ofNotes ++ Role.ofKind kind).map Prod.fst := by
  intro name mem
  rw [List.map_append, ← names_recordOf read]
  exact List.mem_append_right _ mem

theorem Form.recordOf_transfers (h : Transfers (Role.definition.Arranged depth) read read')
    (kind : Kind) :
    (recordOf read kind).Transfers
      (fun name => (Role.of (Role.ofNotes ++ Role.ofKind kind) name).Arranged depth)
      (recordOf read' kind) := by
  have unknown : ∀ name, (recordOf read kind).slot? name = none →
      Role.of (Role.ofNotes ++ Role.ofKind kind) name = .plain := by
    intro name absent
    rw [Record.slot?_eq_none_iff, names_recordOf] at absent
    exact Role.of_ofNotes_append absent
  have optional : Transfers (Role.definition.Arranged depth) (nullable read) (nullable read') :=
    h.nullable fun _ _ _ => Role.Arranged.null_iff
  cases kind with
  | literal =>
    exact Record.transfers_of_known unknown
      (.cons (Slot.transfers_of transfers_json.plain) .nil) rfl rfl rfl
  | struct =>
    have fields := (Field.transfers_read h).arrangedList
    exact Record.transfers_of_known unknown
      (.cons (Slot.transfers_of fields) (.cons (Slot.transfers_of optional) .nil)) rfl rfl rfl
  | tuple =>
    have elements := (Element.transfers_read h).arrangedList
    exact Record.transfers_of_known unknown
      (.cons (Slot.transfers_of elements) (.cons (Slot.transfers_of optional) .nil)) rfl rfl rfl
  | array =>
    exact Record.transfers_of_known unknown (.cons (Slot.transfers_of h)
      (.cons (Slot.transfers_of transfers_bool.plain) .nil)) rfl rfl rfl
  | union =>
    exact Record.transfers_of_known unknown (.cons (Slot.transfers_of h.arrangedList) .nil) rfl rfl rfl
  | refinement =>
    exact Record.transfers_of_known unknown (.cons (Slot.transfers_of h)
      (.cons (Slot.transfers_of Constraint.transfers_read.arrangedList) .nil)) rfl rfl rfl
  | ref =>
    exact Record.transfers_of_known unknown
      (.cons (Slot.transfers_of transfers_string.plain) .nil) rfl rfl rfl
  | _ => exact Record.transfers_of_known unknown .nil rfl rfl rfl

theorem Form.recordOf_apart (read : Reader δ) (kind : Kind) : (recordOf read kind).Apart := by
  cases kind <;> simp [Record.Apart, recordOf, recordOf.bare, Slot.required, Slot.defaulted,
    Slot.apart_of]

theorem Form.recordOf_others (read : Reader δ) (kind : Kind) :
    (recordOf read kind).others = .skipped := by
  cases kind <;> rfl

end

/-! ## Definitions -/

theorem Form.kindOf_eq_ok_iff {kept : Entries} {stop : Nat} {kind : Kind} :
    kindOf kept stop = .ok kind ↔ ∃ source, kept.valuesOf "kind" = [source] ∧
      variant Kind.variants .buffer source = .ok kind := by
  unfold kindOf
  cases kept.valuesOf "kind" with
  | nil => simp
  | cons source others =>
    cases others with
    | nil => simp
    | cons => simp [bind_eq_ok]

namespace Definition

/-- A definition is read in two goes: its annotations, then a form of the kind that exactly one of
the other members tells. -/
theorem readWithin_object_eq_ok_iff {depth start : Nat} {origin : Origin} {entries : Entries}
    {definition : Definition} :
    readWithin (depth + 1) origin (.object start entries) = .ok definition ↔
      ∃ inner notes source kind form, origin.enter start = .ok inner ∧
        notesRecord.ofEntries inner entries = .ok notes ∧
        (entries.without notesRecord.names).valuesOf "kind" = [source] ∧
        variant Form.Kind.variants .buffer source = .ok kind ∧
        (Form.recordOf (readWithin depth) kind).ofEntries .buffer
          ((entries.without notesRecord.names).without ["kind"]) = .ok form ∧
        definition = mk form notes := by
  simp only [readWithin, Record.ofEntries, bind_eq_ok, buffered_eq_ok_iff,
    Record.complete_eq_ok_iff, Form.ofKept, Form.kindOf_eq_ok_iff]
  constructor
  · rintro ⟨inner, entered, ⟨draft, stop⟩, hdraft, notes, hnotes, form, ⟨kind, ⟨source, one, hkind⟩,
      hform⟩, h⟩
    cases h
    exact ⟨inner, notes, source, kind, form, entered, ⟨(draft, stop), hdraft, hnotes⟩, one, hkind,
      hform, rfl⟩
  · rintro ⟨inner, notes, source, kind, form, entered, ⟨⟨draft, stop⟩, hdraft, hnotes⟩, one, hkind,
      hform, rfl⟩
    exact ⟨inner, entered, (draft, stop), hdraft, notes, hnotes, form, ⟨kind, ⟨source, one, hkind⟩,
      hform⟩, rfl⟩

theorem notesRecord_transfers (kind : Form.Kind) : notesRecord.Transfers
    (fun name => (Role.of (Role.ofNotes ++ Role.ofKind kind) name).Arranged depth)
    notesRecord where
  slots := by
    have text : Transfers samePlaces (nullable string) (nullable string) :=
      transfers_string.nullable fun _ _ _ => Source.Same.null_iff
    have examples : Transfers samePlaces (Reader.list json) (Reader.list json) :=
      transfers_json.list.mono fun _ _ _ same => itemwise_of_same same fun _ _ _ same => same
    exact .cons (Slot.transfers_of text.plain) (.cons (Slot.transfers_of text.plain)
      (.cons (Slot.transfers_of examples.plain) .nil))
  others := rfl
  blank := rfl
  finish := rfl
  other := by
    intro name room origin origin' source source' _ related matching h
    refine notesRecord.other_of_readable (matching.readable fun text => ?_)
    subst text
    obtain ⟨value, hvalue, -⟩ := map_eq_ok.mp h
    exact related.1.readable ⟨value, hvalue⟩

theorem names_notesRecord_subset (kind : Form.Kind) : ∀ name ∈ notesRecord.names,
    name ∈ (Role.ofNotes ++ Role.ofKind kind).map Prod.fst := by
  intro name mem
  rw [List.map_append]
  exact List.mem_append_left _ (List.mem_cons_of_mem "kind" mem)

theorem notesRecord_apart : notesRecord.Apart := by
  simp [Record.Apart, notesRecord, Slot.defaulted, Slot.apart_of]

/-- A definition that is an object is read from every other one that is rearranged, as long as this
is so for the definitions inside. -/
theorem readWithin_rearranged {smaller room start : Nat} {origin origin' : Origin}
    {entries : Entries} {source' : Source} {definition : Definition}
    (ih : Transfers (Role.definition.Arranged depth) (readWithin smaller) (readWithin depth))
    (related : Role.definition.Arranged (depth + 1) room (.object start entries) source')
    (matching : origin.Matches room origin' source')
    (hread : readWithin (smaller + 1) origin (.object start entries) = .ok definition) :
    readWithin (depth + 1) origin' source' = .ok definition := by
  obtain ⟨inner, notes, tag, kind, form, entered, hnotes, one, hkind, hform, rfl⟩ :=
    readWithin_object_eq_ok_iff.mp hread
  obtain ⟨members, -, lists, -⟩ := Record.ofEntries_eq_ok_iff.mp hnotes
  have nodup : (members.map Prod.fst).Nodup := lists.names_eq ▸ related.2.1.1
  have fresh : "kind" ∉ notesRecord.names := by decide
  have found : members.lookup "kind" = some tag :=
    (lists.valuesOf_without_iff nodup fresh).mp one
  obtain ⟨start', entries', members', rfl, lists', rearranged⟩ :=
    related.members rfl lists (.definition found hkind)
  obtain ⟨inner', entered', parts⟩ := matching.enter trivial entered
  obtain ⟨tag', found', arranged⟩ := rearranged.lookup found
  have one' : (entries'.without notesRecord.names).valuesOf "kind" = [tag'] :=
    (lists'.valuesOf_without_iff rearranged.nodup fresh).mpr found'
  have hkind' : variant Form.Kind.variants .buffer tag' = .ok kind :=
    transfers_variant _ (room - 1) _ _ _ _ _ arranged.same .buffer hkind
  have hnotes' : notesRecord.ofEntries inner' entries' = .ok notes :=
    (notesRecord_transfers kind).ofEntries notesRecord_apart nofun
      (rearranged.mono (names_notesRecord_subset kind))
      (fun member mem => parts _ (.member lists' mem)) lists lists' hnotes
  have hform' : (Form.recordOf (readWithin depth) kind).ofEntries .buffer
      ((entries'.without notesRecord.names).without ["kind"]) = .ok form :=
    (Form.recordOf_transfers ih kind).ofEntries (Form.recordOf_apart _ kind)
      (by simp [Form.recordOf_others])
      (((rearranged.without _).without _).mono (Form.names_recordOf_subset _ kind))
      (fun _ _ => .buffer) ((lists.without _).without _) ((lists'.without _).without _) hform
  exact readWithin_object_eq_ok_iff.mpr ⟨inner', notes, tag', kind, form, entered', hnotes',
    one', hkind', hform', rfl⟩

/-- A definition that is read from a source is read from every other one that is rearranged. -/
theorem transfers_readWithin (depth smaller : Nat) :
    Transfers (Role.definition.Arranged depth) (readWithin smaller) (readWithin depth) := by
  induction smaller generalizing depth with
  | zero => exact fun _ _ _ _ _ _ _ _ h => nomatch h
  | succ smaller ih =>
    intro room origin origin' source source' definition related matching hread
    cases source with
    | object start entries =>
      cases depth with
      | zero => exact absurd related.depth_pos_of_object (Nat.lt_irrefl 0)
      | succ depth => exact readWithin_rearranged (ih depth) related matching hread
    | _ => cases hread

theorem transfers_read : Transfers (Role.definition.Arranged depth) read read := by
  intro room origin origin' source source' definition related matching hread
  have related : Role.definition.Arranged source'.depth room source source' :=
    ⟨related.1, related.2.1, Nat.le_refl _⟩
  exact transfers_readWithin _ _ _ _ _ _ _ _ related matching hread

end Definition

/-! ## Files -/

namespace DefinitionFile

theorem record_transfers : record.Transfers
    (fun name => (Role.of [("definitions", .map .definition), ("root", .definition)]
      name).Arranged depth) record := by
  have definitions : Transfers ((Role.map .definition).Arranged depth)
      (Reader.map Definition.read) (Reader.map Definition.read) :=
    Definition.transfers_read.entriesMap.mono fun _ _ _ => Role.Arranged.memberwise
  exact Record.transfers_of_known (Record.of_eq_plain_of_slot? rfl)
    (.cons (Slot.transfers_of (definitions.map _))
      (.cons (Slot.transfers_of Definition.transfers_read) .nil)) rfl rfl rfl

theorem record_apart : record.Apart := by
  simp [Record.Apart, record, Slot.required, Slot.defaulted, Slot.apart_of]

/-- A file that is read from a source is read from every other one that is rearranged. -/
theorem transfers_read : Transfers (Role.file.Arranged depth) read read :=
  (record_transfers.read record_apart nofun).mono fun _ _ _ related => related.recordwise .file

/-- A file that is given as text is the same after rearranging. -/
theorem ofText_rearranged {text text' : String} {file : DefinitionFile}
    (distinct : (Source.ofText text).Distinct)
    (rearranged : Source.Rearranged 127 .file (Source.ofText text) (Source.ofText text'))
    (reads : ofText text = .ok file) : ofText text' = .ok file := by
  have reads : read .freshText (Source.ofText text) = .ok file := mapError_eq_ok.mp reads
  exact mapError_eq_ok.mpr (transfers_read 127 _ _ _ _ file
    ⟨rearranged, distinct, Nat.le_refl _⟩ .text reads)

end DefinitionFile

/-- If a text without repeated names makes a graph, then every text makes the same graph in which
members of its records are permuted and members with unknown names are inserted. So the projections
are the same under all options. -/
theorem Graph.ofText_eq_of_rearranged {text text' : String} {graph : Graph}
    (distinct : (Source.ofText text).Distinct)
    (rearranged : Source.Rearranged 127 .file (Source.ofText text) (Source.ofText text'))
    (loads : Graph.ofText text = .ok graph) : Graph.ofText text' = .ok graph := by
  obtain ⟨file, reads, compiles⟩ := bind_eq_ok.mp loads
  exact bind_eq_ok.mpr ⟨file, DefinitionFile.ofText_rearranged distinct rearranged reads, compiles⟩

/-- A list of texts. -/
def textList : String :=
  (Json.object [("root", .object [("kind", .string "array"),
    ("items", .object [("kind", .string "string")])])]).compact

/-- The same list with its kind last, a note in the file, and members of other kinds. -/
def scrambledTextList : String :=
  (Json.object [("note", .null), ("root", .object
    [("items", .object [("name", .array []), ("kind", .string "string")]),
      ("rest", .bool true), ("kind", .string "array")])]).compact

theorem textList_rearranged :
    Source.Rearranged 127 .file (Source.ofText textList) (Source.ofText scrambledTextList) := by
  conv => arg 3; cbv
  conv => arg 4; cbv
  refine @Source.Rearranged.record _ _ _ .file _ _ _ _ [("root", _)] [("note", _)] _
    (.entry rfl (.close _)) (.entry rfl (.entry rfl (.close _))) (.file _) ?_ ?_ ?_
    (.swap _ _ _) (by decide)
  · rfl
  · refine List.forall_mem_singleton.mpr ?_
    refine @Source.Rearranged.record _ _ _ .definition _ _ _ _ [("kind", _), ("items", _)]
      [("rest", _)] _ (.entry rfl (.entry rfl (.close _)))
      (.entry rfl (.entry rfl (.entry rfl (.close _)))) (.definition rfl rfl) ?_ ?_ ?_
      (@List.perm_append_comm _ [_, _] [_]) (by decide)
    · rfl
    · refine List.forall_mem_cons.mpr ⟨.same rfl, List.forall_mem_singleton.mpr ?_⟩
      refine @Source.Rearranged.record _ _ _ .definition _ _ _ _ [("kind", _)] [("name", _)] _
        (.entry rfl (.close _)) (.entry rfl (.entry rfl (.close _))) (.definition rfl rfl) ?_ ?_ ?_
        (.swap _ _ _) (by decide)
      · rfl
      · exact List.forall_mem_singleton.mpr (.same rfl)
      · exact List.forall_mem_singleton.mpr ⟨by decide, .array [], rfl⟩
    · exact List.forall_mem_singleton.mpr ⟨by decide, .bool true, rfl⟩
  · exact List.forall_mem_singleton.mpr ⟨by decide, .null, rfl⟩

theorem Graph.ofText_scrambledTextList :
    ∃ graph, Graph.ofText textList = .ok graph ∧ Graph.ofText scrambledTextList = .ok graph := by
  have loads : Graph.ofText textList = .ok ⟨[], .node .root (.tuple []
      (some (.node (Identity.root.part 0) (.primitive .string) .none))) .none⟩ := by
    cbv
  refine ⟨_, loads, Graph.ofText_eq_of_rearranged ?_ textList_rearranged loads⟩
  cbv
  decide

end SchemaDoc
