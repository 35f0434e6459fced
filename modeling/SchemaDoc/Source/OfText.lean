import SchemaDoc.Source.Basic
import SchemaDoc.Source.Lexeme

/-!
# The layout of a text

`Source.ofText` lays out the first JSON value of a text; what follows it is not looked at. A fault
that is seen by looking at a character, without taking it, is reported just past it, or at the end
of the text.
-/
namespace SchemaDoc

namespace Source

open Lexeme

/-- A part of the text, and what follows it unless it breaks off. -/
abbrev Laid (α : Type) := α × Option Remainder

/-- A word with the value it stands for; its first letter was seen. -/
def ofWord (value : Scalar) (word : List Char) (first : Char) (rest : List Char) (offset : Nat) :
    Laid Source :=
  match scanWord word rest (offset + 1) with
  | .ok after => (.scalar offset after.offset value, some after)
  | .error fault => (.broken offset (some first) fault fault, none)

/-- A scanned string or number. -/
def ofScan {α : Type} (scalar : α → Scalar) (scan : Scan α) (first : Char) (offset : Nat) :
    Laid Source :=
  match scan.reading, scan.skipping with
  | .ok value, .ok after => (.scalar offset after.offset (scalar value), some after)
  | .error fault, .ok after => (.unreadable offset first fault, some after)
  | .error reading, .error skipping => (.broken offset (some first) reading skipping, none)
  | .ok _, .error skipping => (.broken offset (some first) skipping skipping, none)

/-- The end of the text where a value should be. -/
def ended (offset : Nat) : Source :=
  let fault := Malformation.endInValue.fault offset
  .broken offset none fault fault

/-- The offset for errors about a name that ends here: that of the next mark, or past a closing
brace. -/
def keyStop (after : Remainder) : Nat :=
  let next := skipSpace after.text after.offset
  match next.text with
  | '}' :: _ => next.offset + 1
  | _ => next.offset

/-- Gets to the next item of a list, which may be its first, or to how the list goes on. -/
def nextItem (first : Bool) (text : List Char) (offset : Nat) : Except (Laid Items) Remainder :=
  let here := skipSpace text offset
  match here.text with
  | [] => .error (.gap .unterminated here.offset, none)
  | c :: rest =>
    if c = ']' then .error (.close (here.offset + 1), some ⟨rest, here.offset + 1⟩)
    else if first then .ok here
    else if c = ',' then
      let next := skipSpace rest (here.offset + 1)
      match next.text with
      | [] => .error (.gap .endsAfterComma next.offset, none)
      | d :: _ =>
        if d = ']' then .error (.gap .trailingComma (next.offset + 1), none) else .ok next
    else .error (.gap .noComma (here.offset + 1), none)

/-- Gets to the next member of an object, which may be its first, or to how the object goes on. -/
def nextEntry (first : Bool) (text : List Char) (offset : Nat) : Except (Laid Entries) Remainder :=
  let here := skipSpace text offset
  match here.text with
  | [] => .error (.gap .unterminated here.offset, none)
  | c :: rest =>
    if c = '}' then .error (.close (here.offset + 1), some ⟨rest, here.offset + 1⟩)
    else if first then .ok here
    else if c = ',' then
      let next := skipSpace rest (here.offset + 1)
      match next.text with
      | [] => .error (.gap .endsAfterComma next.offset, none)
      | d :: _ =>
        if d = '}' then .error (.gap .trailingComma (next.offset + 1), none) else .ok next
    else .error (.gap .noComma (here.offset + 1), none)

/-- Gets past a name, of which the opening quote is taken, and its colon to the place of the
value. -/
def keyAt (text : List Char) (offset : Nat) : Except Entries (Key × Remainder) :=
  let scan := scanString .start text offset
  match scan.skipping with
  | .error fault => .error (.brokenKey ⟨scan.reading, text, offset⟩ fault)
  | .ok after =>
    let key : Key := ⟨scan.reading, text, keyStop after⟩
    let mark := skipSpace after.text after.offset
    match mark.text with
    | [] => .error (.loneKey key (Malformation.endInObject.fault mark.offset))
    | c :: rest =>
      if c = ':' then .ok (key, skipSpace rest (mark.offset + 1))
      else .error (.loneKey key (Malformation.expectedColon.fault (mark.offset + 1)))

mutual

/-- The value at a place without blanks before it. -/
def valueAt (fuel : Nat) (text : List Char) (offset : Nat) : Laid Source :=
  match fuel, text with
  | 0, _ => (ended offset, none)
  | _ + 1, [] => (ended offset, none)
  | fuel + 1, c :: rest =>
    if c = 'n' then ofWord .null ['u', 'l', 'l'] c rest offset
    else if c = 't' then ofWord (.bool true) ['r', 'u', 'e'] c rest offset
    else if c = 'f' then ofWord (.bool false) ['a', 'l', 's', 'e'] c rest offset
    else if c = '-' ∨ isDigit c then ofScan .number (scanNumber (c :: rest) offset) c offset
    else if c = '"' then ofScan .string (scanString .start rest (offset + 1)) c offset
    else if c = '[' then
      let (items, after) := itemsAt fuel true rest (offset + 1)
      (.array offset items, after)
    else if c = '{' then
      let (entries, after) := entriesAt fuel true rest (offset + 1)
      (.object offset entries, after)
    else
      let fault := Malformation.expectedValue.fault (offset + 1)
      (.broken offset (some c) fault fault, none)
termination_by structural fuel

/-- The items from a place in a list. -/
def itemsAt (fuel : Nat) (first : Bool) (text : List Char) (offset : Nat) : Laid Items :=
  match fuel with
  | 0 => (.gap .unterminated offset, none)
  | fuel + 1 =>
    match nextItem first text offset with
    | .error gone => gone
    | .ok here =>
      match valueAt fuel here.text here.offset with
      | (value, none) => (.item value (.gap .unterminated here.offset), none)
      | (value, some after) =>
        let (rest, after) := itemsAt fuel false after.text after.offset
        (.item value rest, after)
termination_by structural fuel

/-- The members from a place in an object. -/
def entriesAt (fuel : Nat) (first : Bool) (text : List Char) (offset : Nat) : Laid Entries :=
  match fuel with
  | 0 => (.gap .unterminated offset, none)
  | fuel + 1 =>
    match nextEntry first text offset with
    | .error gone => gone
    | .ok here =>
      match here.text with
      | '"' :: rest =>
        match keyAt rest (here.offset + 1) with
        | .error entries => (entries, none)
        | .ok (key, there) =>
          match valueAt fuel there.text there.offset with
          | (value, none) => (.entry key value (.gap .unterminated there.offset), none)
          | (value, some after) =>
            let (rest, after) := entriesAt fuel false after.text after.offset
            (.entry key value rest, after)
      | _ => (.stray (here.offset + 1), none)
termination_by structural fuel

end

/-- Lays out the first value of a text. -/
def ofText (text : String) : Source :=
  let chars := text.toList
  let here := skipSpace chars 0
  (valueAt (2 * chars.length + 2) here.text here.offset).1

end Source

end SchemaDoc
