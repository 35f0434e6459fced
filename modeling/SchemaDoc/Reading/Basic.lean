import SchemaDoc.Reading.Error
import SchemaDoc.Source.Basic

/-!
# Typed readers

A `Reader` takes a value from a `Source`. Where the source comes from makes a difference in a few
places only, which `Origin` tells: from text, arrays and objects may be nested up to a limit; in
memory, a value was read before; in a buffer, a value was kept while the type that it has was not
yet known.
-/
namespace SchemaDoc

/-- Where a source comes from. -/
inductive Origin where
  /-- Text, with the number of arrays and objects that may still be opened. -/
  | text (room : Nat)
  | memory
  | buffer
deriving DecidableEq, Repr

namespace Origin

/-- Text of which nothing has been read: the array or object number 128 is one too deep. -/
def freshText : Origin := text 127

/-- Opens an array or object that starts at an offset. -/
def enter (origin : Origin) (start : Nat) : Except ReadError Origin :=
  match origin with
  | text 0 => .error (.ofFault (Malformation.tooDeep.fault (start + 1)))
  | text (room + 1) => .ok (text room)
  | other => .ok other

end Origin

/-- A reader of values of a type. -/
abbrev Reader (α : Type) := Origin → Source → Except ReadError α

/-- The error for a value of another type than the expected one; text that is no value is to blame
first. -/
def Source.mismatch (expected : String) : Source → ReadError
  | .scalar _ stop value =>
    let found : Found :=
      match value with
      | .null => .null
      | .bool b => .bool b
      | .number n => .ofNumber n
      | .string text => .string text
    .here (.invalidType found expected) stop
  | .unreadable _ _ fault => .ofFault fault
  | .array start _ => .here (.invalidType .sequence expected) start
  | .object start _ => .here (.invalidType .map expected) start
  | .broken _ _ fault _ => .ofFault fault

/-- The name of a member; a fault in it belongs to no member. -/
def Key.read (key : Key) : Except ReadError String :=
  match key.name with
  | .ok name => .ok name
  | .error fault => PathStep.unnamed.into (.error (.ofFault fault))

/-- How the items end for one that has read them: past the bracket, or with an error. -/
def Items.ended : Items → Except ReadError Nat
  | .close stop => .ok stop
  | .gap kind offset => .error (.ofFault (kind.reading.fault offset))
  | .item _ rest => rest.ended

/-- How the members end for one that has read them: past the brace, or with an error. Only a
missing colon is an error of the object rather than of a member. -/
def Entries.ended : Entries → Except ReadError Nat
  | .close stop => .ok stop
  | .gap kind offset => PathStep.unnamed.into (.error (.ofFault (kind.reading.fault offset)))
  | .stray offset =>
    PathStep.unnamed.into (.error (.ofFault (Malformation.keyNotString.fault offset)))
  | .brokenKey key skipping => do
    let _ ← key.read
    PathStep.unnamed.into (.error (.ofFault skipping))
  | .loneKey key fault => do
    let _ ← key.read
    .error (.ofFault fault)
  | .entry _ _ rest => rest.ended

/-- Whole numbers from a least to a greatest one, with the name of the range. -/
structure IntegerRange where
  name : String
  least : Int
  greatest : Int

namespace IntegerRange

def unsigned8 : IntegerRange := ⟨"u8", 0, 255⟩

def signed8 : IntegerRange := ⟨"i8", -128, 127⟩

def signed32 : IntegerRange := ⟨"i32", -2147483648, 2147483647⟩

def unsigned32 : IntegerRange := ⟨"u32", 0, 4294967295⟩

/-- The integer, if it lies in the range. -/
def check (range : IntegerRange) (n : Int) : Except Cause Int :=
  if range.least ≤ n ∧ n ≤ range.greatest then .ok n
  else .error (.invalidValue (.integer n) range.name)

end IntegerRange

namespace Reader

def string : Reader String
  | _, .scalar _ _ (.string text) => .ok text
  | _, source => .error (source.mismatch "a string")

def bool : Reader Bool
  | _, .scalar _ _ (.bool b) => .ok b
  | _, source => .error (source.mismatch "a boolean")

def unit : Reader Unit
  | _, .scalar _ _ .null => .ok ()
  | _, source => .error (source.mismatch "unit")

def integer (range : IntegerRange) : Reader Int
  | _, .scalar _ stop (.number (.integer n)) =>
    (range.check n).mapError (ReadError.here · stop)
  | _, source => .error (source.mismatch range.name)

/-- A value that may be `null`. -/
def nullable {α : Type} (read : Reader α) : Reader (Option α)
  | _, .scalar _ _ .null => .ok none
  | origin, source => (read origin source).map some

/-- Reads the items from the given place on. -/
def items {α : Type} (read : Reader α) (origin : Origin) :
    Nat → Items → Except ReadError (List α)
  | place, .item value rest => do
    let a ← (PathStep.index place).into (read origin value)
    let others ← items read origin (place + 1) rest
    return a :: others
  | _, other => other.ended.map fun _ => []

/-- A list of values. -/
def list {α : Type} (read : Reader α) : Reader (List α)
  | origin, .array start written => do
    let origin ← origin.enter start
    items read origin 0 written
  | _, source => .error (source.mismatch "a sequence")

/-- Reads the members in order; a name may come several times. -/
def entries {α : Type} (read : Reader α) (origin : Origin) :
    Entries → Except ReadError (List (String × α))
  | .entry key value rest => do
    let name ← key.read
    let a ← (PathStep.key name).into (read origin value)
    let others ← entries read origin rest
    return (name, a) :: others
  | other => other.ended.map fun _ => []

/-- A map from names. -/
def map {α : Type} (read : Reader α) : Reader (List (String × α))
  | origin, .object start written => do
    let origin ← origin.enter start
    entries read origin written
  | _, source => .error (source.mismatch "a map")

mutual

/-- Any value at all. A repeated name keeps its first place and its last value. -/
def json (origin : Origin) : Source → Except ReadError Json
  | .scalar _ _ .null => .ok .null
  | .scalar _ _ (.bool b) => .ok (.bool b)
  | .scalar _ _ (.number n) => .ok (.number n)
  | .scalar _ _ (.string text) => .ok (.string text)
  | .unreadable _ _ fault => .error (.ofFault fault)
  | .broken _ _ fault _ => .error (.ofFault fault)
  | .array start written => do
    let origin ← origin.enter start
    return .array (← jsonItems origin 0 written)
  | .object start written => do
    let origin ← origin.enter start
    return .object (Members.ofList (← jsonEntries origin written))

def jsonItems (origin : Origin) : Nat → Items → Except ReadError (List Json)
  | place, .item value rest => do
    let item ← (PathStep.index place).into (json origin value)
    let others ← jsonItems origin (place + 1) rest
    return item :: others
  | _, other => other.ended.map fun _ => []

def jsonEntries (origin : Origin) : Entries → Except ReadError (List (String × Json))
  | .entry key value rest => do
    let name ← key.read
    let item ← (PathStep.key name).into (json origin value)
    let others ← jsonEntries origin rest
    return (name, item) :: others
  | other => other.ended.map fun _ => []

end

/-- Keeps a value in a buffer. It has to be readable; what is in memory was read before. -/
def keep (origin : Origin) (value : Source) : Except ReadError Unit :=
  match origin with
  | .text _ => (json origin value).map fun _ => ()
  | _ => .ok ()

/-- Keeps the items from the given place on; with the offset past the bracket. -/
def keepItems (origin : Origin) (place : Nat) (written : Items) : Except ReadError Nat :=
  match origin with
  | .text _ => do
    let _ ← jsonItems origin place written
    written.ended
  | _ => written.ended

/-- A result of reading from a buffer. An error there has no path, and is reported where the value
that was buffered ends. -/
def buffered {α : Type} (stop : Nat) (result : Except ReadError α) : Except ReadError α :=
  result.mapError fun error => .here error.cause stop

end Reader

end SchemaDoc
