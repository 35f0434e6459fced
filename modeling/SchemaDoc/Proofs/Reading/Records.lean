import Mathlib.Data.List.Pairwise
import SchemaDoc.Proofs.Reading.Transfer

/-!
# Records with rearranged members

The reader of a record takes the members of an object one by one into a draft. If its slots do not
disturb each other, then the order of the members is of no account, nor are members that the record
does not know and that can be read. So a reading passes from one source to another one in which
the members of the first are rearranged.
-/
namespace SchemaDoc

variable {α β δ : Type}

/-! ## Slots -/

namespace Slot

/-- Filling one of the slots has no effect on the other one. -/
structure Apart (slot slot' : Slot δ) : Prop where
  given {origin : Origin} {source : Source} {draft filled : δ} :
    slot.fill origin source draft = .ok filled → slot'.given filled = slot'.given draft
  given' {origin : Origin} {source : Source} {draft filled : δ} :
    slot'.fill origin source draft = .ok filled → slot.given filled = slot.given draft
  fill {origin : Origin} {source source' : Source} {draft final : δ} :
    slot.fill origin source draft >>= slot'.fill origin source' = .ok final ↔
      slot'.fill origin source' draft >>= slot.fill origin source = .ok final

theorem Apart.symm {slot slot' : Slot δ} (h : slot.Apart slot') : slot'.Apart slot :=
  ⟨h.given', h.given, h.fill.symm⟩

instance : Std.Symm (Apart : Slot δ → Slot δ → Prop) := ⟨fun _ _ => Apart.symm⟩

theorem apart_of {name name' : String} {get : δ → Option α} {get' : δ → Option β}
    {set : α → δ → δ} {set' : β → δ → δ} {mayEnd mayEnd' : Bool} {read : Reader α}
    {read' : Reader β} (hget : ∀ b draft, get (set' b draft) = get draft)
    (hget' : ∀ a draft, get' (set a draft) = get' draft)
    (hset : ∀ a b draft, set' b (set a draft) = set a (set' b draft)) :
    (Slot.of name get set mayEnd read).Apart (Slot.of name' get' set' mayEnd' read') where
  given := by
    intro origin source draft filled h
    obtain ⟨a, -, rfl⟩ := map_eq_ok.mp h
    exact congrArg Option.isSome (hget' a draft)
  given' := by
    intro origin source draft filled h
    obtain ⟨b, -, rfl⟩ := map_eq_ok.mp h
    exact congrArg Option.isSome (hget b draft)
  fill := by
    intro origin source source' draft final
    simp only [Slot.of, bind_eq_ok, map_eq_ok]
    constructor
    · rintro ⟨_, ⟨a, ha, rfl⟩, b, hb, rfl⟩
      exact ⟨_, ⟨b, hb, rfl⟩, a, ha, (hset a b draft).symm⟩
    · rintro ⟨_, ⟨b, hb, rfl⟩, a, ha, rfl⟩
      exact ⟨_, ⟨a, ha, rfl⟩, b, hb, hset a b draft⟩

/-- The slots are the same, but for their readers, of which the second one makes of a source what
the first one makes of a related source. -/
structure Transfers (R : SourceRelation) (slot slot' : Slot δ) : Prop where
  name : slot'.name = slot.name
  given : slot'.given = slot.given
  mayEnd : slot'.mayEnd = slot.mayEnd
  fill {room : Nat} {origin origin' : Origin} {source source' : Source} {draft filled : δ} :
    R room source source' → origin.Matches room origin' source' →
      slot.fill origin source draft = .ok filled → slot'.fill origin' source' draft = .ok filled

theorem transfers_of {R : SourceRelation} {name : String} {get : δ → Option α} {set : α → δ → δ}
    {mayEnd : Bool} {read read' : Reader α} (h : Reader.Transfers R read read') :
    (Slot.of name get set mayEnd read).Transfers R (Slot.of name get set mayEnd read') where
  name := rfl
  given := rfl
  mayEnd := rfl
  fill := by
    intro room origin origin' source source' draft filled related matching hfill
    obtain ⟨a, ha, rfl⟩ := map_eq_ok.mp hfill
    exact map_eq_ok.mpr ⟨a, h _ _ _ _ _ a related matching ha, rfl⟩

/-- The slots are filled with the items in order, and those that are left over may be. -/
inductive FilledBy (origin : Origin) : List (Slot δ) → δ → List Source → δ → Prop
  | ended {slots : List (Slot δ)} {draft : δ} : (∀ slot ∈ slots, slot.mayEnd = true) →
      FilledBy origin slots draft [] draft
  | item {slot : Slot δ} {slots : List (Slot δ)} {source : Source} {sources : List Source}
      {draft filled final : δ} : slot.fill origin source draft = .ok filled →
      FilledBy origin slots filled sources final →
      FilledBy origin (slot :: slots) draft (source :: sources) final

theorem FilledBy.length_le {origin : Origin} {slots : List (Slot δ)} {draft final : δ}
    {sources : List Source} (h : FilledBy origin slots draft sources final) :
    sources.length ≤ slots.length := by
  induction h with
  | ended => exact Nat.zero_le _
  | item _ _ ih => exact Nat.succ_le_succ ih

theorem rel_find?_of_transfers {R : String → SourceRelation} {slots slots' : List (Slot δ)}
    (h : List.Forall₂ (fun slot slot' => slot.Transfers (R slot.name) slot') slots slots')
    (name : String) :
    Option.Rel (fun slot slot' => slot.Transfers (R name) slot')
      (slots.find? (·.name == name)) (slots'.find? (·.name == name)) := by
  induction h with
  | nil => exact .none
  | @cons slot slot' _ _ first _ ih =>
    rw [List.find?_cons, List.find?_cons, first.name]
    cases named : slot.name == name with
    | true =>
      obtain rfl := beq_iff_eq.mp named
      exact .some first
    | false => exact ih

theorem FilledBy.transfer {R : String → SourceRelation} {room : Nat} {origin origin' : Origin}
    {slots slots' : List (Slot δ)} {draft final : δ} {sources sources' : List Source}
    (hslots : List.Forall₂ (fun slot slot' => slot.Transfers (R slot.name) slot') slots slots')
    (related : List.Forall₂ (fun pair source' => R pair.1 room pair.2 source' ∧
      origin.Matches room origin' source') ((slots.map name).zip sources) sources')
    (h : FilledBy origin slots draft sources final) :
    FilledBy origin' slots' draft sources' final := by
  induction h generalizing slots' sources' with
  | ended mayEnd =>
    rw [List.zip_nil_right] at related
    cases related
    refine .ended fun slot' mem => ?_
    obtain ⟨slot, hslot, transfers⟩ := exists_of_mem_right hslots mem
    exact transfers.mayEnd.trans (mayEnd slot hslot)
  | item filled _ ih =>
    cases hslots with
    | cons first others =>
      cases related with
      | cons source rest =>
        exact .item (first.fill source.1 source.2 filled) (ih others rest)

end Slot

/-! ## Members -/

namespace Record

/-- What a member does to a draft of the record. -/
inductive Takes (record : Record δ α) (origin : Origin) : δ → String × Source → δ → Prop
  | field {name : String} {source : Source} {slot : Slot δ} {draft filled : δ} :
      record.slot? name = some slot → slot.given draft = false →
      slot.fill origin source draft = .ok filled →
      Takes record origin draft (name, source) filled
  | other {name : String} {source : Source} {draft : δ} :
      record.slot? name = none → record.others ≠ .refused →
      record.other origin source = .ok () → Takes record origin draft (name, source) draft

/-- What members do to a draft of the record one after the other. -/
inductive TakesAll (record : Record δ α) (origin : Origin) :
    δ → List (String × Source) → δ → Prop
  | nil (draft : δ) : TakesAll record origin draft [] draft
  | cons {draft next final : δ} {member : String × Source} {rest : List (String × Source)} :
      record.Takes origin draft member next → TakesAll record origin next rest final →
      TakesAll record origin draft (member :: rest) final

variable {record : Record δ α} {origin : Origin} {draft : δ}

theorem refusal?_eq_none_iff {key : Key} {name : String} :
    record.refusal? draft key name = none ↔
      (∀ slot, record.slot? name = some slot → slot.given draft = false) ∧
      (record.slot? name = none → record.others ≠ .refused) := by
  unfold refusal?
  cases record.slot? name with
  | some slot => simp
  | none => cases record.others <;> simp

theorem readEntries_entry_eq_ok_iff {key : Key} {value : Source} {rest : Entries}
    {result : δ × Nat} :
    record.readEntries origin draft (.entry key value rest) = .ok result ↔
      ∃ name next, key.name = .ok name ∧ record.Takes origin draft (name, value) next ∧
        record.readEntries origin next rest = .ok result := by
  rw [readEntries]
  constructor
  · intro h
    obtain ⟨name, hname, h⟩ := bind_eq_ok.mp h
    have hname := Key.read_eq_ok_iff.mp hname
    split at h
    · cases h
    · next welcome =>
      obtain ⟨free, open_⟩ := refusal?_eq_none_iff.mp welcome
      split at h
      · next slot hslot =>
        obtain ⟨next, hfill, h⟩ := bind_eq_ok.mp h
        exact ⟨name, next, hname, .field hslot (free slot hslot) (PathStep.into_eq_ok.mp hfill), h⟩
      · next unknown =>
        obtain ⟨_, hother, h⟩ := bind_eq_ok.mp h
        exact ⟨name, draft, hname, .other unknown (open_ unknown) (PathStep.into_eq_ok.mp hother), h⟩
  · rintro ⟨name, next, hname, takes, h⟩
    refine bind_eq_ok.mpr ⟨name, Key.read_eq_ok_iff.mpr hname, ?_⟩
    cases takes with
    | field hslot free hfill =>
      have welcome : record.refusal? draft key name = none :=
        refusal?_eq_none_iff.mpr (by simp [hslot, free])
      simp only [welcome, hslot]
      exact bind_eq_ok.mpr ⟨next, PathStep.into_eq_ok.mpr hfill, h⟩
    | other unknown open_ hother =>
      have welcome : record.refusal? draft key name = none :=
        refusal?_eq_none_iff.mpr (by simp [unknown, open_])
      simp only [welcome, unknown]
      exact bind_eq_ok.mpr ⟨(), PathStep.into_eq_ok.mpr hother, h⟩

theorem readEntries_eq_ok_iff {entries : Entries} {result : δ × Nat} :
    record.readEntries origin draft entries = .ok result ↔ ∃ members, entries.Lists members ∧
      entries.ended = .ok result.2 ∧ record.TakesAll origin draft members result.1 := by
  fun_induction Record.readEntries record origin draft entries generalizing result with
  | case1 draft key value rest known unknown =>
    rw [← readEntries, readEntries_entry_eq_ok_iff]
    constructor
    · rintro ⟨name, next, hname, takes, h⟩
      obtain ⟨members, lists, ended, all⟩ := (known next).mp h
      exact ⟨(name, value) :: members, .entry hname lists, ended, .cons takes all⟩
    · rintro ⟨_, lists, ended, all⟩
      cases lists with
      | entry hname lists =>
        cases all with
        | cons takes all => exact ⟨_, _, hname, takes, (known _).mpr ⟨_, lists, ended, all⟩⟩
  | case2 draft key fault =>
    constructor
    · intro h
      obtain ⟨name, -, h⟩ := bind_eq_ok.mp h
      split at h <;> cases h
    · rintro ⟨_, lists, -⟩
      cases lists
  | case3 draft written noEntry _ =>
    constructor
    · intro h
      obtain ⟨stop, ended, rfl⟩ := map_eq_ok.mp h
      exact ⟨[], Entries.lists_nil_of_ended noEntry ended, ended, .nil draft⟩
    · rintro ⟨_, lists, ended, all⟩
      cases lists with
      | entry => exact absurd rfl (noEntry _ _ _)
      | close =>
        cases all
        exact map_eq_ok.mpr ⟨_, ended, rfl⟩

theorem ofEntries_eq_ok_iff {entries : Entries} {a : α} :
    record.ofEntries origin entries = .ok a ↔ ∃ members draft, entries.Lists members ∧
      record.TakesAll origin record.blank members draft ∧ record.finish draft = .ok a := by
  unfold ofEntries
  rw [bind_eq_ok]
  constructor
  · rintro ⟨⟨draft, stop⟩, hdraft, h⟩
    obtain ⟨members, lists, -, all⟩ := readEntries_eq_ok_iff.mp hdraft
    exact ⟨members, draft, lists, all, mapError_eq_ok.mp h⟩
  · rintro ⟨members, draft, lists, all, h⟩
    obtain ⟨stop, ended⟩ := lists.exists_ended
    exact ⟨(draft, stop), readEntries_eq_ok_iff.mpr ⟨members, lists, ended, all⟩,
      mapError_eq_ok.mpr h⟩

theorem complete_eq_ok_iff {stop : Nat} {a : α} :
    record.complete draft stop = .ok a ↔ record.finish draft = .ok a := mapError_eq_ok

theorem readEnd_eq_ok_iff {place stop : Nat} {items : Items} :
    readEnd origin place items = .ok stop ↔ items = .close stop := by
  constructor
  · intro h
    unfold readEnd at h
    split at h <;> cases h
    rfl
  · rintro rfl
    unfold readEnd
    cases origin <;> rfl

theorem readItems_eq_ok_iff {slots : List (Slot δ)} {place : Nat} {items : Items}
    {result : δ × Nat} :
    record.readItems origin slots place draft items = .ok result ↔ ∃ sources,
      items.Lists sources ∧ items.ended = .ok result.2 ∧
        Slot.FilledBy origin slots draft sources result.1 := by
  fun_induction Record.readItems record origin slots place draft items generalizing result with
  | case1 place draft items =>
    simp only [map_eq_ok, readEnd_eq_ok_iff]
    constructor
    · rintro ⟨stop, rfl, rfl⟩
      exact ⟨[], .close stop, rfl, .ended (List.forall_mem_nil _)⟩
    · rintro ⟨_, lists, ended, filled⟩
      cases filled
      cases lists
      cases ended
      exact ⟨_, rfl, rfl⟩
  | case2 slot slots place draft value rest ih =>
    simp only [bind_eq_ok, PathStep.into_eq_ok, ih]
    constructor
    · rintro ⟨next, hfill, sources, lists, ended, filled⟩
      exact ⟨value :: sources, .item lists, ended, .item hfill filled⟩
    · rintro ⟨_, lists, ended, filled⟩
      cases lists with
      | item lists =>
        cases filled with
        | item hfill filled => exact ⟨_, hfill, _, lists, ended, filled⟩
  | case3 slot slots place draft stop mayEnd ih =>
    rw [ih]
    constructor
    · rintro ⟨_, lists, ended, filled⟩
      cases lists
      cases filled with
      | ended others =>
        exact ⟨[], .close stop, ended, .ended (List.forall_mem_cons.mpr ⟨mayEnd, others⟩)⟩
    · rintro ⟨_, lists, ended, filled⟩
      cases lists
      cases filled with
      | ended all => exact ⟨[], .close stop, ended, .ended (List.forall_mem_cons.mp all).2⟩
  | case4 slot slots place draft stop mayEnd =>
    constructor
    · intro failed
      cases failed
    · rintro ⟨_, lists, ended, filled⟩
      cases lists
      cases filled with
      | ended all => exact absurd (all slot List.mem_cons_self) mayEnd
  | case5 =>
    constructor
    · intro failed
      cases failed
    · rintro ⟨_, lists, -⟩
      cases lists

theorem ofItems_eq_ok_iff {items : Items} {a : α} :
    record.ofItems origin items = .ok a ↔ ∃ sources draft, items.Lists sources ∧
      Slot.FilledBy origin record.slots record.blank sources draft ∧
        record.finish draft = .ok a := by
  unfold ofItems
  rw [bind_eq_ok]
  constructor
  · rintro ⟨⟨draft, stop⟩, hdraft, h⟩
    obtain ⟨sources, lists, -, filled⟩ := readItems_eq_ok_iff.mp hdraft
    exact ⟨sources, draft, lists, filled, mapError_eq_ok.mp h⟩
  · rintro ⟨sources, draft, lists, filled, h⟩
    obtain ⟨stop, ended⟩ := lists.exists_ended
    exact ⟨(draft, stop), readItems_eq_ok_iff.mpr ⟨sources, lists, ended, filled⟩,
      mapError_eq_ok.mpr h⟩

/-! ## The order of members -/

/-- No slot of the record has an effect on another one. -/
def Apart (record : Record δ α) : Prop := record.slots.Pairwise Slot.Apart

theorem slot?_eq_some {name : String} {slot : Slot δ} (h : record.slot? name = some slot) :
    slot ∈ record.slots ∧ slot.name = name :=
  ⟨List.mem_of_find?_eq_some h, by simpa using List.find?_some h⟩

theorem slot?_eq_none_iff {name : String} : record.slot? name = none ↔ name ∉ record.names := by
  simp [slot?, names, List.find?_eq_none]

theorem Apart.of_slot? (h : record.Apart) {name name' : String} {slot slot' : Slot δ}
    (hslot : record.slot? name = some slot) (hslot' : record.slot? name' = some slot')
    (ne : name ≠ name') : slot.Apart slot' := by
  obtain ⟨mem, rfl⟩ := slot?_eq_some hslot
  obtain ⟨mem', rfl⟩ := slot?_eq_some hslot'
  exact List.Pairwise.forall h mem mem' fun same => ne (congrArg Slot.name same)

theorem Takes.swap (apart : record.Apart) {first second : String × Source} {next final : δ}
    (ne : first.1 ≠ second.1) (hfirst : record.Takes origin draft first next)
    (hsecond : record.Takes origin next second final) :
    ∃ other, record.Takes origin draft second other ∧ record.Takes origin other first final := by
  cases hfirst with
  | other unknown open_ hother => exact ⟨final, hsecond, .other unknown open_ hother⟩
  | field hslot free hfill =>
    cases hsecond with
    | other unknown open_ hother =>
      exact ⟨draft, .other unknown open_ hother, .field hslot free hfill⟩
    | field hslot' free' hfill' =>
      have apart := apart.of_slot? hslot hslot' ne
      obtain ⟨other, hother, hfinal⟩ := bind_eq_ok.mp
        (apart.fill.mp (bind_eq_ok.mpr ⟨next, hfill, hfill'⟩))
      have free' := (apart.given hfill).symm.trans free'
      have free := (apart.given' hother).trans free
      exact ⟨other, .field hslot' free' hother, .field hslot free hfinal⟩

/-- Members with different names may be taken in any order. -/
theorem TakesAll.perm (apart : record.Apart) {members members' : List (String × Source)}
    {final : δ} (perm : members.Perm members') (nodup : (members.map Prod.fst).Nodup)
    (h : record.TakesAll origin draft members final) :
    record.TakesAll origin draft members' final := by
  induction perm generalizing draft with
  | nil => exact h
  | cons member _ ih =>
    cases h with
    | cons first rest => exact .cons first (ih (List.nodup_cons.mp nodup).2 rest)
  | swap first second rest =>
    cases h with
    | cons hsecond h =>
      cases h with
      | cons hfirst h =>
        have ne : second.1 ≠ first.1 := fun same =>
          (List.nodup_cons.mp nodup).1 (same ▸ List.mem_cons_self)
        obtain ⟨other, hfirst, hsecond⟩ := hsecond.swap apart ne hfirst
        exact .cons hfirst (.cons hsecond h)
  | trans first _ ih₁ ih₂ => exact ih₂ ((first.map _).nodup_iff.mp nodup) (ih₁ nodup h)

theorem TakesAll.append {members added : List (String × Source)} {next final : δ}
    (h : record.TakesAll origin draft members next)
    (h' : record.TakesAll origin next added final) :
    record.TakesAll origin draft (members ++ added) final := by
  induction h with
  | nil => exact h'
  | cons first _ ih => exact .cons first (ih h')

/-- Members that the record does not know may be added. -/
theorem TakesAll.append_others (open_ : record.others ≠ .refused)
    {members added : List (String × Source)} {final : δ}
    (others : ∀ member ∈ added, record.slot? member.1 = none ∧
      record.other origin member.2 = .ok ())
    (h : record.TakesAll origin draft members final) :
    record.TakesAll origin draft (members ++ added) final := by
  have ignored : record.TakesAll origin final added final := by
    induction added with
    | nil => exact .nil final
    | cons member rest ih =>
      obtain ⟨first, others⟩ := List.forall_mem_cons.mp others
      exact .cons (.other first.1 open_ first.2) (ih others)
  exact h.append ignored

/-! ## From one record to another -/

/-- The records are the same, but for the readers of their slots and what those make of related
sources. Of members that the records do not know it is asked that they remain acceptable. -/
structure Transfers (R : String → SourceRelation) (record record' : Record δ α) : Prop where
  slots : List.Forall₂ (fun slot slot' => slot.Transfers (R slot.name) slot')
    record.slots record'.slots
  others : record'.others = record.others
  blank : record'.blank = record.blank
  finish : record'.finish = record.finish
  other {name : String} {room : Nat} {origin origin' : Origin} {source source' : Source} :
    record.slot? name = none → R name room source source' →
      origin.Matches room origin' source' → record.other origin source = .ok () →
        record'.other origin' source' = .ok ()

namespace Transfers

variable {R : String → SourceRelation} {record' : Record δ α} {room : Nat} {origin' : Origin}

theorem names_eq (h : record.Transfers R record') : record'.names = record.names :=
  map_eq_of_forall₂ (fun _ _ h => h.name) h.slots

theorem rel_slot? (h : record.Transfers R record') (name : String) :
    Option.Rel (fun slot slot' => slot.Transfers (R name) slot')
      (record.slot? name) (record'.slot? name) :=
  Slot.rel_find?_of_transfers h.slots name

theorem takes (h : record.Transfers R record') {name : String} {source source' : Source}
    {next : δ} (related : R name room source source')
    (matching : origin.Matches room origin' source')
    (takes : record.Takes origin draft (name, source) next) :
    record'.Takes origin' draft (name, source') next := by
  have slots := h.rel_slot? name
  generalize found : record'.slot? name = slot? at slots
  cases takes with
  | field hslot free hfill =>
    rw [hslot] at slots
    cases slots with
    | some transfers =>
      exact .field found (transfers.given ▸ free) (transfers.fill related matching hfill)
  | other unknown open_ hother =>
    rw [unknown] at slots
    cases slots
    exact .other found (h.others ▸ open_) (h.other unknown related matching hother)

theorem takesAll (h : record.Transfers R record') {members members' : List (String × Source)}
    {final : δ} (related : List.Forall₂ (fun member member' => (member'.1 = member.1 ∧
      R member.1 room member.2 member'.2) ∧ origin.Matches room origin' member'.2) members members')
    (all : record.TakesAll origin draft members final) :
    record'.TakesAll origin' draft members' final := by
  induction all generalizing members' with
  | nil draft =>
    cases related
    exact .nil draft
  | cons first _ ih =>
    cases related with
    | @cons _ member' _ _ member rest =>
      obtain ⟨name', source'⟩ := member'
      obtain ⟨⟨rfl, related⟩, matching⟩ := member
      exact .cons (h.takes related matching first) (ih rest)

end Transfers

/-- What can be read is accepted under a name that the record does not know. -/
theorem other_of_readable (record : Record δ α) {origin : Origin} {source : Source}
    (readable : ∀ room, origin = .text room → source.Readable origin) :
    record.other origin source = .ok () := by
  cases origin with
  | text room =>
    have readable := readable room rfl
    have skips : source.skip.mapError ReadError.ofFault = .ok () :=
      mapError_eq_ok.mpr readable.skip
    obtain ⟨value, h⟩ := readable
    unfold other
    cases record.others with
    | kept => exact map_eq_ok.mpr ⟨value, h, rfl⟩
    | skipped => exact skips
    | refused => exact skips
  | memory =>
    unfold other
    cases record.others <;> rfl
  | buffer =>
    unfold other
    cases record.others <;> rfl

end Record

theorem Entries.Lists.without {entries : Entries} {members : List (String × Source)}
    (h : entries.Lists members) (names : List String) :
    (entries.without names).Lists (members.filter (·.1 ∉ names)) := by
  induction h with
  | close stop => exact .close stop
  | @entry key name value rest members readable _ ih =>
    simp only [Entries.without, readable, List.filter_cons]
    by_cases mem : name ∈ names
    · simpa [mem] using ih
    · simpa [mem] using Entries.Lists.entry readable ih

theorem Entries.Lists.valuesOf_eq {entries : Entries} {members : List (String × Source)}
    (h : entries.Lists members) (nodup : (members.map Prod.fst).Nodup) (name : String) :
    entries.valuesOf name = (members.lookup name).toList := by
  induction h with
  | close => rfl
  | @entry key other value rest members readable _ ih =>
    obtain ⟨fresh, nodup⟩ := List.nodup_cons.mp nodup
    simp only [Entries.valuesOf, readable]
    split
    · next same =>
      subst same
      rw [ih nodup, lookup_eq_none_of_notMem fresh, List.lookup_cons_self]
      rfl
    · next ne =>
      rw [ih nodup, List.lookup_cons, beq_false_of_ne (Ne.symm ne)]

theorem lookup_filter_notMem {members : List (String × Source)} {names : List String}
    {name : String} (h : name ∉ names) :
    (members.filter (·.1 ∉ names)).lookup name = members.lookup name := by
  induction members with
  | nil => rfl
  | cons member rest ih =>
    obtain ⟨other, source⟩ := member
    rw [List.filter_cons, List.lookup_cons]
    by_cases same : name = other
    · subst same
      simp [h]
    · rw [beq_false_of_ne same]
      split
      · rw [List.lookup_cons, beq_false_of_ne same]
        exact ih
      · exact ih

/-- Members that are kept tell the only value of a name that is not left out. -/
theorem Entries.Lists.valuesOf_without_iff {entries : Entries} {members : List (String × Source)}
    (h : entries.Lists members) (nodup : (members.map Prod.fst).Nodup) {names : List String}
    {name : String} (fresh : name ∉ names) {source : Source} :
    (entries.without names).valuesOf name = [source] ↔ members.lookup name = some source := by
  have nodup' := nodup.sublist ((List.filter_sublist (p := (·.1 ∉ names))).map Prod.fst)
  rw [(h.without names).valuesOf_eq nodup', lookup_filter_notMem fresh]
  cases members.lookup name <;> simp

/-! ## Rearranged members -/

/-- The members are rearranged: all are kept with values that are related to what they were, and
members with further names are inserted whose values can be read. -/
def Rearranges (known : List String) (R : String → SourceRelation) (room : Nat)
    (members members' : List (String × Source)) : Prop :=
  ∃ kept inserted, List.Forall₂ (fun member member' => member'.1 = member.1 ∧
      R member.1 room member.2 member'.2) members kept ∧
    (∀ member ∈ inserted, member.1 ∉ known ∧ member.2.Readable (.text room)) ∧
    members'.Perm (kept ++ inserted) ∧ (members'.map Prod.fst).Nodup

section

variable {known : List String} {R : String → SourceRelation} {room : Nat}
  {members members' : List (String × Source)}

theorem rearranges_of_forall₂ (h : List.Forall₂ (fun member member' => member'.1 = member.1 ∧
    R member.1 room member.2 member'.2) members members')
    (nodup : (members.map Prod.fst).Nodup) : Rearranges known R room members members' := by
  refine ⟨members', [], h, List.forall_mem_nil _, ?_, ?_⟩
  · rw [List.append_nil]
  · rwa [map_eq_of_forall₂ (fun _ _ h => h.1) h]

theorem Rearranges.nodup (h : Rearranges known R room members members') :
    (members'.map Prod.fst).Nodup := by
  obtain ⟨kept, inserted, -, -, -, nodup⟩ := h
  exact nodup

theorem Rearranges.mono (h : Rearranges known R room members members') {fewer : List String}
    (subset : ∀ name ∈ fewer, name ∈ known) : Rearranges fewer R room members members' := by
  obtain ⟨kept, inserted, related, further, perm, nodup⟩ := h
  exact ⟨kept, inserted, related, fun member mem => ⟨fun known => (further member mem).1
    (subset _ known), (further member mem).2⟩, perm, nodup⟩

theorem Rearranges.imp (h : Rearranges known R room members members')
    {S : String → SourceRelation} (hR : ∀ member ∈ members, ∀ member' ∈ members',
      R member.1 room member.2 member'.2 → S member.1 room member.2 member'.2) :
    Rearranges known S room members members' := by
  obtain ⟨kept, inserted, related, further, perm, nodup⟩ := h
  refine ⟨kept, inserted, (forall₂_mem_both related).imp ?_, further, perm, nodup⟩
  intro member member' h
  have kept := perm.mem_iff.mpr (List.mem_append_left inserted h.2)
  exact ⟨h.1.2.1, hR member h.1.1 member' kept h.1.2.2⟩

/-- The member of a name is still there. -/
theorem Rearranges.lookup (h : Rearranges known R room members members') {name : String}
    {source : Source} (found : members.lookup name = some source) :
    ∃ source', members'.lookup name = some source' ∧ R name room source source' := by
  obtain ⟨kept, inserted, related, further, perm, nodup⟩ := h
  obtain ⟨⟨name', source'⟩, mem, same, hsource⟩ :=
    exists_of_mem_right related.flip (mem_of_lookup found)
  obtain rfl : name' = name := same
  have kept := perm.mem_iff.mpr (List.mem_append_left inserted mem)
  exact ⟨source', lookup_of_mem nodup kept, hsource⟩

theorem Rearranges.without (h : Rearranges known R room members members') (names : List String) :
    Rearranges known R room (members.filter (·.1 ∉ names)) (members'.filter (·.1 ∉ names)) := by
  obtain ⟨kept, inserted, related, further, perm, nodup⟩ := h
  refine ⟨kept.filter (·.1 ∉ names), inserted.filter (·.1 ∉ names), ?_, ?_, ?_, ?_⟩
  · exact forall₂_filter (fun member member' h => by rw [h.1]) related
  · exact fun member mem => further member (List.mem_filter.mp mem).1
  · rw [← List.filter_append]
    exact perm.filter _
  · exact nodup.sublist (List.filter_sublist.map _)

end

/-- The members of the first source are rearranged in the second one or, if they are written
without names, the values are related in their order. -/
def Recordwise (names : List String) (R : String → SourceRelation) :
    SourceRelation := fun room source source' =>
  (∀ start entries members, source = .object start entries → entries.Lists members →
    ∃ start' entries' members', source' = .object start' entries' ∧ entries'.Lists members' ∧
      Rearranges names R (room - 1) members members') ∧
  ∀ start items sources, source = .array start items → items.Lists sources →
    sources.length ≤ names.length → ∃ start' items' sources', source' = .array start' items' ∧
      items'.Lists sources' ∧
      List.Forall₂ (fun pair source' => R pair.1 (room - 1) pair.2 source') (names.zip sources)
        sources'

theorem recordwise_of_same (names : List String) {R : String → SourceRelation} {room : Nat}
    {source source' : Source} (h : source.Same source') (distinct : source.Distinct)
    (hR : ∀ name part part', source.Part part → part.Same part' → R name (room - 1) part part') :
    Recordwise names R room source source' := by
  constructor
  · rintro start entries members rfl lists
    obtain ⟨start', entries', members', rfl, lists', each⟩ := memberwise_of_same h hR _ _ _ rfl lists
    have nodup : (members.map Prod.fst).Nodup := lists.names_eq ▸ distinct.1
    exact ⟨start', entries', members', rfl, lists', rearranges_of_forall₂ each nodup⟩
  · rintro start items sources rfl lists short
    obtain ⟨start', items', rfl, inner⟩ := h.of_array
    obtain ⟨sources', lists', each⟩ := lists.of_same inner
    refine ⟨start', items', sources', rfl, lists', ?_⟩
    refine (forall₂_zip_left short (forall₂_mem each)).imp ?_
    intro pair part' h
    exact hR pair.1 pair.2 part' (.item lists h.1) h.2

theorem recordwise_of_sameContent (names : List String) {room : Nat} {source source' : Source}
    (h : sameContent room source source') :
    Recordwise names (fun _ => sameContent) room source source' :=
  recordwise_of_same names h.1 h.2 fun _ _ _ part same => ⟨same, part.distinct h.2⟩

namespace Record

variable {R : String → SourceRelation} {record record' : Record δ α} {room : Nat}
  {origin origin' : Origin} {members members' : List (String × Source)}

/-- What differs in places only is accepted as before under a name that the records do not know. -/
theorem other_of_same (others : record'.others = record.others) {source source' : Source}
    (same : source.Same source') (matching : origin.Matches room origin' source')
    (h : record.other origin source = .ok ()) : record'.other origin' source' = .ok () := by
  cases matching with
  | text =>
    unfold other at h ⊢
    rw [others]
    cases hothers : record.others with
    | kept =>
      rw [hothers] at h
      obtain ⟨value, hvalue, -⟩ := map_eq_ok.mp h
      have hvalue := Reader.transfers_json room _ _ source source' value same .text hvalue
      exact map_eq_ok.mpr ⟨value, hvalue, rfl⟩
    | skipped =>
      rw [hothers] at h
      exact mapError_eq_ok.mpr (Source.skip_of_same same (mapError_eq_ok.mp h))
    | refused =>
      rw [hothers] at h
      exact mapError_eq_ok.mpr (Source.skip_of_same same (mapError_eq_ok.mp h))
  | buffer => exact record'.other_of_readable nofun
  | direct _ _ readable => exact record'.other_of_readable fun _ _ => readable

theorem transfers_of_slots (slots : List.Forall₂ (fun slot slot' => slot.Transfers sameContent slot')
    record.slots record'.slots) (others : record'.others = record.others)
    (blank : record'.blank = record.blank) (finish : record'.finish = record.finish) :
    record.Transfers (fun _ => sameContent) record' where
  slots := slots
  others := others
  blank := blank
  finish := finish
  other := fun _ related matching h => other_of_same others related.1 matching h

/-- From rearranged members the same draft is made. -/
theorem Transfers.takesAll_of_rearranges (h : record.Transfers R record') (apart : record'.Apart)
    (open_ : record'.others ≠ .refused) (related : Rearranges record.names R room members members')
    (matching : ∀ member ∈ members', origin.Matches room origin' member.2) {draft final : δ}
    (all : record.TakesAll origin draft members final) :
    record'.TakesAll origin' draft members' final := by
  obtain ⟨kept, inserted, related, further, perm, nodup⟩ := related
  have matching : ∀ member ∈ kept ++ inserted, origin.Matches room origin' member.2 :=
    fun member mem => matching member (perm.mem_iff.mpr mem)
  obtain ⟨hkept, hinserted⟩ := List.forall_mem_append.mp matching
  have first : record'.TakesAll origin' draft kept final :=
    h.takesAll ((forall₂_mem_both related).imp fun _ member' h => ⟨h.1.2, hkept member' h.2⟩) all
  have others : ∀ member ∈ inserted,
      record'.slot? member.1 = none ∧ record'.other origin' member.2 = .ok () := by
    intro member mem
    obtain ⟨unknown, readable⟩ := further member mem
    constructor
    · rwa [slot?_eq_none_iff, h.names_eq]
    · exact record'.other_of_readable ((hinserted member mem).readable fun _ => readable)
  exact (first.append_others open_ others).perm apart perm.symm
    ((perm.map _).nodup_iff.mp nodup)

theorem Transfers.ofEntries (h : record.Transfers R record') (apart : record'.Apart)
    (open_ : record'.others ≠ .refused) (related : Rearranges record.names R room members members')
    (matching : ∀ member ∈ members', origin.Matches room origin' member.2)
    {entries entries' : Entries} (lists : entries.Lists members) (lists' : entries'.Lists members')
    {a : α} (hread : record.ofEntries origin entries = .ok a) :
    record'.ofEntries origin' entries' = .ok a := by
  obtain ⟨_, draft, listed, all, finished⟩ := ofEntries_eq_ok_iff.mp hread
  obtain rfl := lists.unique listed
  refine ofEntries_eq_ok_iff.mpr ⟨members', draft, lists', ?_, h.finish ▸ finished⟩
  rw [h.blank]
  exact h.takesAll_of_rearranges apart open_ related matching all

theorem Transfers.ofItems (h : record.Transfers R record') {sources sources' : List Source}
    (related : List.Forall₂ (fun pair source' => R pair.1 room pair.2 source')
      (record.names.zip sources) sources')
    (matching : ∀ source ∈ sources', origin.Matches room origin' source)
    {items items' : Items} (lists : items.Lists sources) (lists' : items'.Lists sources')
    {a : α} (hread : record.ofItems origin items = .ok a) :
    record'.ofItems origin' items' = .ok a := by
  obtain ⟨_, draft, listed, filled, finished⟩ := ofItems_eq_ok_iff.mp hread
  obtain rfl := lists.unique listed
  refine ofItems_eq_ok_iff.mpr ⟨sources', draft, lists', ?_, h.finish ▸ finished⟩
  rw [h.blank]
  exact filled.transfer h.slots
    ((forall₂_mem_both related).imp fun _ source h => ⟨h.1.2, matching source h.2⟩)

theorem Transfers.read (h : record.Transfers R record') (apart : record'.Apart)
    (open_ : record'.others ≠ .refused) :
    Reader.Transfers (Recordwise record.names R) record.read record'.read := by
  rintro room origin origin' source source' a ⟨objects, arrays⟩ matching hread
  unfold Record.read at hread
  split at hread
  · obtain ⟨inner, entered, hread⟩ := bind_eq_ok.mp hread
    obtain ⟨members, -, lists, -⟩ := ofEntries_eq_ok_iff.mp hread
    obtain ⟨start', entries', members', rfl, lists', related⟩ := objects _ _ _ rfl lists
    obtain ⟨inner', entered', parts⟩ := matching.enter trivial entered
    refine bind_eq_ok.mpr ⟨inner', entered', ?_⟩
    exact h.ofEntries apart open_ related (fun member mem => parts _ (.member lists' mem)) lists
      lists' hread
  · obtain ⟨inner, entered, hread⟩ := bind_eq_ok.mp hread
    obtain ⟨sources, draft, lists, filled, -⟩ := ofItems_eq_ok_iff.mp hread
    have short : sources.length ≤ record.names.length := by
      simpa [names] using filled.length_le
    obtain ⟨start', items', sources', rfl, lists', related⟩ := arrays _ _ _ rfl lists short
    obtain ⟨inner', entered', parts⟩ := matching.enter trivial entered
    refine bind_eq_ok.mpr ⟨inner', entered', ?_⟩
    exact h.ofItems related (fun source mem => parts _ (.item lists' mem)) lists lists' hread
  · cases hread

end Record

end SchemaDoc
