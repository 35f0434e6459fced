/-!
# Faults of JSON text

What can be wrong with a text as JSON, and the place where it shows as an offset in bytes. A place
is told to people as a line and a column.
-/
namespace SchemaDoc

/-- What is wrong with a text as JSON. -/
inductive Malformation where
  | endInValue
  | endInString
  | endInList
  | endInObject
  | expectedValue
  | expectedIdent
  | expectedColon
  | expectedCommaOrBracket
  | expectedCommaOrBrace
  | expectedDoubleQuote
  | expectedNumericKey
  | keyNotString
  | trailingComma
  | trailingCharacters
  | invalidNumber
  | numberOutOfRange
  | invalidEscape
  | loneSurrogate
  | unexpectedEndOfEscape
  | controlCharacter
  | tooDeep
deriving DecidableEq, Repr

/-- A malformation, with the offset at which it is reported. -/
structure Fault where
  malformation : Malformation
  offset : Nat
deriving DecidableEq, Repr

namespace Malformation

def message : Malformation → String
  | endInValue => "EOF while parsing a value"
  | endInString => "EOF while parsing a string"
  | endInList => "EOF while parsing a list"
  | endInObject => "EOF while parsing an object"
  | expectedValue => "expected value"
  | expectedIdent => "expected ident"
  | expectedColon => "expected `:`"
  | expectedCommaOrBracket => "expected `,` or `]`"
  | expectedCommaOrBrace => "expected `,` or `\x7d`"
  | expectedDoubleQuote => "expected `\"`"
  | expectedNumericKey => "invalid value: expected key to be a number in quotes"
  | keyNotString => "key must be a string"
  | trailingComma => "trailing comma"
  | trailingCharacters => "trailing characters"
  | invalidNumber => "invalid number"
  | numberOutOfRange => "number out of range"
  | invalidEscape => "invalid escape"
  | loneSurrogate => "lone leading surrogate in hex escape"
  | unexpectedEndOfEscape => "unexpected end of hex escape"
  | controlCharacter => "control character (\\u0000-\\u001F) found while parsing a string"
  | tooDeep => "recursion limit exceeded"

/-- The malformation at an offset. -/
def fault (malformation : Malformation) (offset : Nat) : Fault := ⟨malformation, offset⟩

end Malformation

/-- A line, from one, and a column in bytes, from zero for the place before the line's first
byte. -/
structure Position where
  line : Nat
  column : Nat
deriving DecidableEq, Repr

namespace Position

/-- Moves over the characters that start before the offset, which is that many bytes away. -/
def advance : List Char → Nat → Position → Position
  | [], _, position => position
  | c :: rest, bytes, position =>
    if bytes = 0 then position
    else if c = '\n' then advance rest (bytes - 1) ⟨position.line + 1, 0⟩
    else advance rest (bytes - c.utf8Size) ⟨position.line, position.column + min bytes c.utf8Size⟩

/-- The position of an offset in a text. -/
def ofOffset (text : String) (offset : Nat) : Position := advance text.toList offset ⟨1, 0⟩

/-- How a position ends a message. -/
def message (position : Position) : String := s!" at line {position.line} column {position.column}"

end Position

end SchemaDoc
