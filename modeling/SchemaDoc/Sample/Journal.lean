import SchemaDoc.Reading.Record
import SchemaDoc.Sample.Team

/-!
# Journals of events

An event is written as its name alone, or as an object of one member, whose name says what event
it is and whose value holds the rest.
-/
namespace SchemaDoc

inductive Event where
  | ping
  | say (text : String)
  | pair (number : Int) (flag : Bool)
  | move (x : Int) (user : Option User)
deriving DecidableEq, Repr

namespace Event

inductive Kind where
  | ping
  | say
  | pair
  | move
deriving DecidableEq, Repr

namespace Kind

def variants : Reader.Variants Kind :=
  [("Ping", ping), ("Say", say), ("Pair", pair), ("Move", move)]

def name : Kind → String
  | ping => "Ping"
  | say => "Say"
  | pair => "Pair"
  | move => "Move"

end Kind

structure PairDraft where
  number : Option Int
  flag : Option Bool

/-- A pair, which is read from an array only. -/
def pairRecord : Record PairDraft Event where
  title := "tuple variant Event::Pair"
  slots :=
    [.required "0" PairDraft.number (fun n draft => { draft with number := n })
        (Reader.integer .signed32),
      .required "1" PairDraft.flag (fun b draft => { draft with flag := b }) Reader.bool]
  others := .skipped
  blank := ⟨none, none⟩
  finish := fun draft => do return pair (← needed "0" draft.number) (← needed "1" draft.flag)

structure MoveDraft where
  x : Option Int
  user : Option (Option User)

def moveRecord : Record MoveDraft Event where
  title := "struct variant Event::Move"
  slots :=
    [.required "x" MoveDraft.x (fun x draft => { draft with x := x }) (Reader.integer .signed8),
      .required "to" MoveDraft.user (fun user draft => { draft with user := some user })
        (Reader.nullable User.read)]
  others := .skipped
  blank := ⟨none, none⟩
  finish := fun draft => do return move (← needed "x" draft.x) draft.user.join

/-- Reads what an event holds. A value in memory must be of the right sort at once, where an array
of no items counts as nothing. -/
def readContent (kind : Kind) : Reader Event
  | origin, source =>
    match kind with
    | .ping => (Reader.unit origin source).map fun _ => ping
    | .say => (Reader.string origin source).map say
    | .pair =>
      match origin, source with
      | .text _, .array _ _ => pairRecord.read origin source
      | _, .array _ (.close stop) =>
        .error (.here (.invalidType .null pairRecord.title) stop)
      | _, .array _ _ => pairRecord.read origin source
      | .text _, source => .error (source.mismatch pairRecord.title)
      | _, source => .error (source.mismatch "tuple variant")
    | .move =>
      match origin, source with
      | .text _, source => moveRecord.read origin source
      | _, .object _ _ => moveRecord.read origin source
      | _, source => .error (source.mismatch "struct variant")

/-- An event that is written as its name alone must not hold anything. -/
def ofName (kind : Kind) (stop : Nat) : Except ReadError Event :=
  let fail (expected : String) : Except ReadError Event :=
    (PathStep.variant kind.name).into (.error (.here (.invalidType .unitVariant expected) stop))
  match kind with
  | .ping => .ok ping
  | .say => fail "newtype variant"
  | .pair => fail "tuple variant"
  | .move => fail "struct variant"

/-- The kind that the name of a member tells. -/
def kindOf (origin : Origin) (key : Key) : Except ReadError Kind :=
  match key.name with
  | .ok name => Reader.variant Kind.variants origin (.scalar key.stop key.stop (.string name))
  | .error fault => .error (.ofFault fault)

/-- Reads an event from the members of an object in a text. -/
def readEntries (origin : Origin) : Entries → Except ReadError Event
  | .close stop => .error (.ofFault (Malformation.expectedValue.fault stop))
  | .gap kind offset => .error (.ofFault (kind.reading.fault offset))
  | .stray offset => .error (.ofFault (Malformation.keyNotString.fault offset))
  | .brokenKey key fault => do
    let _ ← kindOf origin key
    .error (.ofFault fault)
  | .loneKey key fault => do
    let _ ← kindOf origin key
    .error (.ofFault fault)
  | .entry key value rest => do
    let kind ← kindOf origin key
    let event ← (PathStep.variant kind.name).into (readContent kind origin value)
    match rest with
    | .close _ => return event
    | .gap .unterminated offset => .error (.ofFault (Malformation.endInObject.fault offset))
    | .gap _ offset => .error (.ofFault (Malformation.expectedValue.fault offset))
    | _ => .error (.ofFault (Malformation.expectedValue.fault key.stop))

/-- Reads an event. -/
def read : Reader Event
  | origin, .scalar start stop (.string name) => do
    let kind ← Reader.variant Kind.variants origin (.scalar start stop (.string name))
    ofName kind stop
  | .text room, .object start entries => do
    let origin ← (Origin.text room).enter start
    readEntries origin entries
  | .text _, .unreadable start first fault =>
    if first = '"' then .error (.ofFault fault)
    else .error (.ofFault (Malformation.expectedValue.fault (start + 1)))
  | .text _, .broken start first fault _ =>
    match first with
    | none => .error (.ofFault fault)
    | some '"' => .error (.ofFault fault)
    | some _ => .error (.ofFault (Malformation.expectedValue.fault (start + 1)))
  | .text _, source => .error (.ofFault (Malformation.expectedValue.fault (source.start + 1)))
  | origin, .object _ (.entry key value (.close _)) => do
    let kind ← kindOf origin key
    (PathStep.variant kind.name).into (readContent kind origin value)
  | _, .object _ _ =>
    .error (.here (.invalidValue .map "map with a single key") 0)
  | _, source => .error (source.mismatch "string or map")

def toJson : Event → Json
  | ping => .string Kind.ping.name
  | say text => .object [(Kind.say.name, .string text)]
  | pair n b => .object [(Kind.pair.name, .array [.number (.integer n), .bool b])]
  | move x user =>
    .object [(Kind.move.name, .object
      [("x", .number (.integer x)), ("to", (user.map User.toJson).getD .null)])]

end Event

/-- A journal is a bare list of events. -/
structure Journal where
  events : List Event
deriving DecidableEq, Repr

namespace Journal

def read : Reader Journal := fun origin source => (Reader.list Event.read origin source).map Journal.mk

def toJson (journal : Journal) : Json := .array (journal.events.map Event.toJson)

end Journal

end SchemaDoc
