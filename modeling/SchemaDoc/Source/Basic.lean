import SchemaDoc.Json.Basic
import SchemaDoc.Source.Fault

/-!
# Laid out JSON

A `Source` is what typed readers read from: JSON text laid out as a tree, each part with the
offsets in bytes at which errors about it are reported. Text that is not JSON has a tree too, up to
where it breaks off. Two kinds of readers walk over a text, those that want the values and those
that only skip them, and they do not always see the same fault or any: a skipped string may hold
surrogates that make no character, and a skipped number may be out of range. So a broken part
tells both faults, and an unreadable part can only be skipped. A value that is in memory is a
`Source` as well, without places.
-/
namespace SchemaDoc

inductive Scalar where
  | null
  | bool (value : Bool)
  | number (value : Number)
  | string (value : String)
deriving DecidableEq

/-- How a list goes on where neither an item nor its end does. -/
inductive ItemGap where
  /-- The text ends. -/
  | unterminated
  /-- An item is not followed by a comma. -/
  | noComma
  /-- The end follows a comma. -/
  | trailingComma
  /-- The text ends after a comma. -/
  | endsAfterComma
deriving DecidableEq, Repr

/-- How an object goes on where neither a member nor its end does. -/
inductive EntryGap where
  /-- The text ends. -/
  | unterminated
  /-- A member is not followed by a comma. -/
  | noComma
  /-- The end follows a comma. -/
  | trailingComma
  /-- The text ends after a comma. -/
  | endsAfterComma
deriving DecidableEq, Repr

/-- The name of a member: the name or why it cannot be read, the text that follows the opening
quote, and the offset for errors about the name, which is that of the next mark or just past a
closing brace. -/
structure Key where
  name : Except Fault String
  verbatim : List Char
  stop : Nat

mutual

inductive Source where
  | scalar (start stop : Nat) (value : Scalar)
  /-- A string or number with no value, which can only be skipped. -/
  | unreadable (start : Nat) (first : Char) (fault : Fault)
  | array (start : Nat) (items : Items)
  | object (start : Nat) (entries : Entries)
  /-- No value, with the first character there and the faults for readers and for skippers. -/
  | broken (start : Nat) (first : Option Char) (reading skipping : Fault)

inductive Items where
  | close (stop : Nat)
  | gap (kind : ItemGap) (offset : Nat)
  | item (value : Source) (rest : Items)

inductive Entries where
  | close (stop : Nat)
  | gap (kind : EntryGap) (offset : Nat)
  /-- Something other than a string where a name should be. -/
  | stray (offset : Nat)
  /-- A name that breaks off, or lacks its colon after it cannot be read. -/
  | brokenKey (key : Key) (skipping : Fault)
  /-- A name without a colon. -/
  | loneKey (key : Key) (fault : Fault)
  | entry (key : Key) (value : Source) (rest : Entries)

end

namespace ItemGap

/-- The fault for one that reads on. -/
def reading : ItemGap → Malformation
  | unterminated => .endInList
  | noComma => .expectedCommaOrBracket
  | trailingComma => .trailingComma
  | endsAfterComma => .endInValue

/-- The fault for one that skips. -/
def skipping : ItemGap → Malformation
  | unterminated => .endInList
  | noComma => .expectedCommaOrBracket
  | trailingComma => .expectedValue
  | endsAfterComma => .endInValue

/-- The fault for one that wants the list to end here. -/
def ending : ItemGap → Malformation
  | unterminated => .endInList
  | noComma => .trailingCharacters
  | trailingComma => .trailingComma
  | endsAfterComma => .trailingCharacters

end ItemGap

namespace EntryGap

/-- The fault for one that reads on. -/
def reading : EntryGap → Malformation
  | unterminated => .endInObject
  | noComma => .expectedCommaOrBrace
  | trailingComma => .trailingComma
  | endsAfterComma => .endInValue

/-- The fault for one that skips. -/
def skipping : EntryGap → Malformation
  | unterminated => .endInObject
  | noComma => .expectedCommaOrBrace
  | trailingComma => .keyNotString
  | endsAfterComma => .endInObject

end EntryGap

/-- A name with no place in a text. -/
def Key.ofName (name : String) : Key := ⟨.ok name, [], 0⟩

namespace Source

/-- The offset of the first character. -/
def start : Source → Nat
  | scalar start _ _ => start
  | unreadable start _ _ => start
  | array start _ => start
  | object start _ => start
  | broken start _ _ _ => start

end Source

mutual

/-- The fault met when the value is skipped. -/
def Source.skip : Source → Except Fault Unit
  | .scalar _ _ _ => .ok ()
  | .unreadable _ _ _ => .ok ()
  | .array _ items => items.skip
  | .object _ entries => entries.skip
  | .broken _ _ _ fault => .error fault

def Items.skip : Items → Except Fault Unit
  | .close _ => .ok ()
  | .gap kind offset => .error (kind.skipping.fault offset)
  | .item value rest => do value.skip; rest.skip

def Entries.skip : Entries → Except Fault Unit
  | .close _ => .ok ()
  | .gap kind offset => .error (kind.skipping.fault offset)
  | .stray offset => .error (Malformation.keyNotString.fault offset)
  | .brokenKey _ fault => .error fault
  | .loneKey _ fault => .error fault
  | .entry _ value rest => do value.skip; rest.skip

end

mutual

/-- How many arrays and objects stand inside one another. -/
def Source.depth : Source → Nat
  | .array _ items => items.depth + 1
  | .object _ entries => entries.depth + 1
  | _ => 0

def Items.depth : Items → Nat
  | .item value rest => max value.depth rest.depth
  | _ => 0

def Entries.depth : Entries → Nat
  | .entry _ value rest => max value.depth rest.depth
  | _ => 0

end

mutual

/-- A value in memory. -/
def Source.ofJson : Json → Source
  | .null => .scalar 0 0 .null
  | .bool b => .scalar 0 0 (.bool b)
  | .number n => .scalar 0 0 (.number n)
  | .string text => .scalar 0 0 (.string text)
  | .array items => .array 0 (Items.ofList items)
  | .object members => .object 0 (Entries.ofList members)

def Items.ofList : List Json → Items
  | [] => .close 0
  | item :: rest => .item (.ofJson item) (Items.ofList rest)

def Entries.ofList : List (String × Json) → Entries
  | [] => .close 0
  | (name, value) :: rest => .entry (.ofName name) (.ofJson value) (Entries.ofList rest)

end

namespace Items

/-- The number of items. -/
def count : Items → Nat
  | item _ rest => rest.count + 1
  | _ => 0

end Items

namespace Entries

/-- The entries whose names are not listed. -/
def without (names : List String) : Entries → Entries
  | entry key value rest =>
    let others := rest.without names
    match key.name with
    | .ok name => if name ∈ names then others else entry key value others
    | .error _ => entry key value others
  | other => other

/-- The values of a name, in order. -/
def valuesOf (name : String) : Entries → List Source
  | entry key value rest =>
    match key.name with
    | .ok other => if other = name then value :: rest.valuesOf name else rest.valuesOf name
    | .error _ => rest.valuesOf name
  | _ => []

/-- The number of members. -/
def count : Entries → Nat
  | entry _ _ rest => rest.count + 1
  | _ => 0

end Entries

end SchemaDoc
