import SchemaDoc.Reading.Basic
import SchemaDoc.Source.Lexeme

/-!
# Maps with numbers as names

A name that stands for a number is scanned as a number between the quotes, as it is written in a
text, escapes and all. Once an integer was scanned it names the member in errors.
-/
namespace SchemaDoc.Reader

/-- Scans a number that the given characters begin with, and checks that nothing follows it but
what `closed` allows. -/
def scanKey (range : IntegerRange) (text : List Char) (start : Nat) (closed : List Char → Bool)
    (unclosed : Malformation) : Except ReadError Int :=
  let fail (error : ReadError) : Except ReadError Int := PathStep.unnamed.into (.error error)
  match text with
  | [] => fail (.ofFault (Malformation.expectedNumericKey.fault start))
  | c :: _ =>
    if c = '-' ∨ Lexeme.isDigit c then
      let scan := Lexeme.scanNumber text start
      match scan.reading, scan.skipping with
      | .error fault, _ => fail (.ofFault fault)
      | .ok _, .error fault => fail (.ofFault fault)
      | .ok (.float x), .ok rest => fail (.here (.invalidType (.float x) range.name) rest.offset)
      | .ok (.integer n), .ok rest =>
        (PathStep.key (toString n)).into do
          let n ← (range.check n).mapError (ReadError.here · rest.offset)
          if closed rest.text then return n
          else .error (.ofFault (unclosed.fault (rest.offset + 1)))
    else fail (.ofFault (Malformation.expectedNumericKey.fault start))

/-- The number that a name stands for. -/
def numericKey (range : IntegerRange) (origin : Origin) (key : Key) : Except ReadError Int :=
  match origin with
  | .text _ =>
    scanKey range key.verbatim key.stop (fun rest => rest.head? = some '"') .expectedDoubleQuote
  | _ => do
    let name ← key.read
    scanKey range name.toList 0 List.isEmpty .expectedNumericKey

/-- Reads the members in order; a number may come several times. -/
def numberedEntries {α : Type} (range : IntegerRange) (read : Reader α) (origin : Origin) :
    Entries → Except ReadError (List (Int × α))
  | .entry key value rest => do
    let n ← numericKey range origin key
    let a ← (PathStep.key (toString n)).into (read origin value)
    let others ← numberedEntries range read origin rest
    return (n, a) :: others
  | .brokenKey key fault => do
    let _ ← numericKey range origin key
    PathStep.unnamed.into (.error (.ofFault fault))
  | .loneKey key fault => do
    let _ ← numericKey range origin key
    .error (.ofFault fault)
  | other => other.ended.map fun _ => []

/-- A map from numbers. -/
def numberedMap {α : Type} (range : IntegerRange) (read : Reader α) : Reader (List (Int × α))
  | origin, .object start written => do
    let origin ← origin.enter start
    numberedEntries range read origin written
  | _, source => .error (source.mismatch "a map")

end SchemaDoc.Reader
