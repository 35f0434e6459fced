import SchemaDoc.Double.Shortest
import SchemaDoc.Json.Basic

/-!
# JSON text

`Json.compact` writes a value without any blanks. `Json.pretty` writes one member or item a line,
indented by two blanks for each level, with empty arrays and objects closed at once.
-/
namespace SchemaDoc

namespace Number

/-- All places are written from `10 ^ -5` up to below `10 ^ 16`. -/
def style : Decimal.Style := ⟨-5, 15⟩

def chars : Number → List Char
  | integer n => if n < 0 then '-' :: Nat.toDigits 10 n.natAbs else Nat.toDigits 10 n.natAbs
  | float x => x.chars style

end Number

namespace Json

def hexDigit (n : Nat) : Char := (Nat.toDigits 16 n).headD '0'

/-- The written form of a character inside quotes. -/
def escapedChar (c : Char) : List Char :=
  match c with
  | '"' => ['\\', '"']
  | '\\' => ['\\', '\\']
  | '\x08' => ['\\', 'b']
  | '\t' => ['\\', 't']
  | '\n' => ['\\', 'n']
  | '\x0c' => ['\\', 'f']
  | '\r' => ['\\', 'r']
  | c =>
    if c.toNat < 0x20 then
      ['\\', 'u', '0', '0', hexDigit (c.toNat / 16), hexDigit (c.toNat % 16)]
    else [c]

def quoted (text : String) : List Char := '"' :: (text.toList.flatMap escapedChar ++ ['"'])

mutual

/-- The text without blanks. -/
def chars : Json → List Char
  | null => ['n', 'u', 'l', 'l']
  | bool true => ['t', 'r', 'u', 'e']
  | bool false => ['f', 'a', 'l', 's', 'e']
  | number n => n.chars
  | string text => quoted text
  | array items => '[' :: ([','].intercalate (itemTexts items) ++ [']'])
  | object members => '{' :: ([','].intercalate (memberTexts members) ++ ['}'])

def itemTexts : List Json → List (List Char)
  | [] => []
  | item :: rest => item.chars :: itemTexts rest

def memberTexts : List (String × Json) → List (List Char)
  | [] => []
  | (name, value) :: rest => (quoted name ++ ':' :: value.chars) :: memberTexts rest

end

def compact (value : Json) : String := String.ofList value.chars

/-- A new line with an indent of two blanks for each level. -/
def lineBreak (level : Nat) : List Char := '\n' :: List.replicate (2 * level) ' '

/-- The parts of an array or object, each on a line of its own one level further in. -/
def block (opening closing : Char) (level : Nat) (parts : List (List Char)) : List Char :=
  match parts with
  | [] => [opening, closing]
  | parts =>
    opening :: (lineBreak (level + 1) ++ (',' :: lineBreak (level + 1)).intercalate parts ++
      lineBreak level ++ [closing])

mutual

/-- The text with one part a line, for a value that stands `level` levels in. -/
def prettyChars (level : Nat) : Json → List Char
  | array items => block '[' ']' level (prettyItems (level + 1) items)
  | object members => block '{' '}' level (prettyMembers (level + 1) members)
  | null => ['n', 'u', 'l', 'l']
  | bool true => ['t', 'r', 'u', 'e']
  | bool false => ['f', 'a', 'l', 's', 'e']
  | number n => n.chars
  | string text => quoted text

def prettyItems (level : Nat) : List Json → List (List Char)
  | [] => []
  | item :: rest => item.prettyChars level :: prettyItems level rest

def prettyMembers (level : Nat) : List (String × Json) → List (List Char)
  | [] => []
  | (name, value) :: rest =>
    (quoted name ++ ':' :: ' ' :: value.prettyChars level) :: prettyMembers level rest

end

def pretty (value : Json) : String := String.ofList (value.prettyChars 0)

end Json

end SchemaDoc
