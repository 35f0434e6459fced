import SchemaDoc.Reading.Basic

/-!
# Records

A record is read from an object, member by member into a draft, or from an array that has its
fields in their order. `Record.Others` tells what happens to members the record does not know.
A field that is missing is only noticed at the end, and the first one in order is reported.
-/
namespace SchemaDoc

/-- A field of a record: its name, whether a draft has it, and how it is read into a draft. At
the end of an array it may be left out only if `mayEnd` says so. -/
structure Slot (δ : Type) where
  name : String
  given : δ → Bool
  fill : Origin → Source → δ → Except ReadError δ
  mayEnd : Bool

namespace Slot

variable {δ α : Type}

/-- A field that a draft holds as an optional value. -/
def of (name : String) (get : δ → Option α) (set : α → δ → δ) (mayEnd : Bool) (read : Reader α) :
    Slot δ where
  name := name
  given := fun draft => (get draft).isSome
  fill := fun origin source draft => (read origin source).map (set · draft)
  mayEnd := mayEnd

/-- A field that must be there. -/
def required (name : String) (get : δ → Option α) (set : α → δ → δ) (read : Reader α) : Slot δ :=
  of name get set false read

/-- A field that has a value when it is left out. -/
def defaulted (name : String) (get : δ → Option α) (set : α → δ → δ) (read : Reader α) : Slot δ :=
  of name get set true read

end Slot

/-- What happens to members that a record does not know. -/
inductive Others where
  /-- They only have to be JSON. -/
  | skipped
  /-- They are errors. -/
  | refused
  /-- They are kept for a later reading, so they have to be readable. -/
  | kept
deriving DecidableEq, Repr

/-- A record of type `α`: how it is named in errors, its fields in order, what becomes of other
members, the draft to start from, and the record that a draft makes unless a field is missing. -/
structure Record (δ α : Type) where
  title : String
  slots : List (Slot δ)
  others : Others
  blank : δ
  finish : δ → Except String α

namespace Record

variable {δ α : Type} (record : Record δ α)

def slot? (name : String) : Option (Slot δ) := record.slots.find? (·.name == name)

def names : List String := record.slots.map Slot.name

/-- The fields counted, as errors about the length of an array tell it. -/
def counted : String :=
  let n := record.slots.length
  s!"{record.title} with {n} element" ++ if n = 1 then "" else "s"

/-- The error that the name of a member makes before its value is looked at. -/
def refusal? (draft : δ) (key : Key) (name : String) : Option ReadError :=
  match record.slot? name with
  | some slot =>
    if slot.given draft then some (.here (.duplicateField name) key.stop) else none
  | none =>
    match record.others with
    | .refused => some ((ReadError.here (.unknownField name record.names) key.stop).under (.key name))
    | _ => none

/-- What is asked of the value of an unknown member. -/
def other (origin : Origin) (value : Source) : Except ReadError Unit :=
  match record.others, origin with
  | .kept, origin => Reader.keep origin value
  | _, .text _ => value.skip.mapError ReadError.ofFault
  | _, _ => .ok ()

/-- Reads members into a draft, in order; with the offset past the closing brace. -/
def readEntries (origin : Origin) : δ → Entries → Except ReadError (δ × Nat)
  | draft, .entry key value rest => do
    let name ← key.read
    match record.refusal? draft key name with
    | some error => .error error
    | none =>
      match record.slot? name with
      | some slot =>
        let draft ← (PathStep.key name).into (slot.fill origin value draft)
        readEntries origin draft rest
      | none =>
        (PathStep.key name).into (record.other origin value)
        readEntries origin draft rest
  | draft, .loneKey key fault => do
    let name ← key.read
    match record.refusal? draft key name with
    | some error => .error error
    | none => .error (.ofFault fault)
  | draft, rest => rest.ended.map fun stop => (draft, stop)

/-- Nothing may follow the last field of an array; `place` items came before. -/
def readEnd (origin : Origin) (place : Nat) (rest : Items) : Except ReadError Nat :=
  match origin, rest with
  | _, .close stop => .ok stop
  | .text _, .item value _ => .error (.ofFault (Malformation.trailingCharacters.fault (value.start + 1)))
  | .text _, .gap kind offset => .error (.ofFault (kind.ending.fault offset))
  | .memory, rest =>
    .error (.here (.invalidLength (place + rest.count) "fewer elements in array") 0)
  | .buffer, rest =>
    let expected := s!"{place} element" ++ (if place = 1 then "" else "s") ++ " in sequence"
    .error (.here (.invalidLength (place + rest.count) expected) 0)

/-- Reads items into a draft, one for each field; with the offset past the closing bracket. -/
def readItems (origin : Origin) : List (Slot δ) → Nat → δ → Items → Except ReadError (δ × Nat)
  | [], place, draft, rest => (readEnd origin place rest).map fun stop => (draft, stop)
  | slot :: slots, place, draft, .item value rest => do
    let draft ← (PathStep.index place).into (slot.fill origin value draft)
    readItems origin slots (place + 1) draft rest
  | slot :: slots, place, draft, .close stop =>
    if slot.mayEnd then readItems origin slots (place + 1) draft (.close stop)
    else .error (.here (.invalidLength place record.counted) stop)
  | _ :: _, _, _, .gap kind offset => .error (.ofFault (kind.reading.fault offset))

/-- The record of a draft; a missing field is reported at the end. -/
def complete (draft : δ) (stop : Nat) : Except ReadError α :=
  (record.finish draft).mapError fun name => .here (.missingField name) stop

def ofEntries (origin : Origin) (entries : Entries) : Except ReadError α := do
  let (draft, stop) ← record.readEntries origin record.blank entries
  record.complete draft stop

def ofItems (origin : Origin) (items : Items) : Except ReadError α := do
  let (draft, stop) ← record.readItems origin record.slots 0 record.blank items
  record.complete draft stop

/-- Reads the record from an object or from an array. -/
def read : Reader α
  | origin, .object start entries => do
    let origin ← origin.enter start
    record.ofEntries origin entries
  | origin, .array start items => do
    let origin ← origin.enter start
    record.ofItems origin items
  | _, source => .error (source.mismatch record.title)

end Record

/-- A field of a draft that must have been given. -/
def needed {α : Type} (name : String) (value : Option α) : Except String α :=
  match value with
  | some a => .ok a
  | none => .error name

namespace Reader

/-- The values of an enumeration, each under its name. -/
abbrev Variants (α : Type) := List (String × α)

/-- A variant by name or, in a buffer, by its place in the order. -/
def variant {α : Type} (variants : Variants α) : Reader α
  | _, .scalar _ stop (.string name) =>
    match variants.lookup name with
    | some a => .ok a
    | none => .error (.here (.unknownVariant name (variants.map Prod.fst)) stop)
  | .buffer, .scalar start stop (.number (.integer n)) =>
    if n < 0 then
      .error ((Source.scalar start stop (.number (.integer n))).mismatch "variant identifier")
    else
      match variants[n.toNat]? with
      | some a => .ok a.2
      | none =>
        let expected := s!"variant index 0 <= i < {variants.length}"
        .error (.here (.invalidValue (.integer n) expected) stop)
  | _, source => .error (source.mismatch "variant identifier")

end Reader

end SchemaDoc
