import SchemaDoc.Double.OfDecimal
import SchemaDoc.Json.Basic
import SchemaDoc.Source.Fault

/-!
# The lexemes of JSON

Words, strings and numbers are scanned for readers and for skippers at once: `Scan.reading` is the
value or the fault a reader meets, `Scan.skipping` is where a skipper gets past the lexeme or the
fault it meets. Whatever can be read can be skipped.
-/
namespace SchemaDoc

/-- What follows a lexeme, and the offset there. -/
structure Remainder where
  text : List Char
  offset : Nat

structure Scan (α : Type) where
  reading : Except Fault α
  skipping : Except Fault Remainder

/-- A lexeme at which readers and skippers meet the same fault. -/
def Scan.failed {α : Type} (fault : Fault) : Scan α := ⟨.error fault, .error fault⟩

namespace Lexeme

def isSpace (c : Char) : Bool := c == ' ' || c == '\t' || c == '\n' || c == '\r'

def isDigit (c : Char) : Bool := '0' ≤ c && c ≤ '9'

def digitValue (c : Char) : Nat := c.toNat - '0'.toNat

/-- Gets past blanks, which are one byte each. -/
def skipSpace : List Char → Nat → Remainder
  | [], offset => ⟨[], offset⟩
  | c :: rest, offset => if isSpace c then skipSpace rest (offset + 1) else ⟨c :: rest, offset⟩

/-- Gets past the rest of a word. -/
def scanWord : List Char → List Char → Nat → Except Fault Remainder
  | [], text, offset => .ok ⟨text, offset⟩
  | _ :: _, [], offset => .error (Malformation.endInValue.fault offset)
  | expected :: word, c :: rest, offset =>
    if c = expected then scanWord word rest (offset + 1)
    else .error (Malformation.expectedIdent.fault (offset + 1))

/-! ## Strings -/

/-- A string while it is read: the characters so far, last one first, and the leading surrogate
that waits for its trailing one. -/
abbrev Reading := Except Fault (List Char × Option Nat)

namespace Reading

def start : Reading := .ok ([], none)

/-- A fault, unless there was one before. -/
def fail (state : Reading) (fault : Fault) : Reading :=
  match state with
  | .ok _ => .error fault
  | .error first => .error first

/-- A leading surrogate that is followed by something else than a trailing one is a fault. -/
def unpaired (state : Reading) (offset : Nat) : Reading :=
  match state with
  | .ok (_, some _) => .error (Malformation.unexpectedEndOfEscape.fault offset)
  | other => other

/-- Adds a character. -/
def push (state : Reading) (c : Char) : Reading := state.map fun (cs, _) => (c :: cs, none)

/-- The character of a pair of surrogates. -/
def pairChar (lead trail : Nat) : Char :=
  Char.ofNat ((lead - 0xD800) * 0x400 + (trail - 0xDC00) + 0x10000)

/-- Adds a unit of sixteen bits, whose escape ends at the offset. -/
def pushUnit (state : Reading) (unit offset : Nat) : Reading :=
  match state with
  | .error fault => .error fault
  | .ok (cs, some lead) =>
    if 0xDC00 ≤ unit ∧ unit ≤ 0xDFFF then .ok (pairChar lead unit :: cs, none)
    else .error (Malformation.loneSurrogate.fault offset)
  | .ok (cs, none) =>
    if 0xDC00 ≤ unit ∧ unit ≤ 0xDFFF then .error (Malformation.loneSurrogate.fault offset)
    else if 0xD800 ≤ unit ∧ unit ≤ 0xDBFF then .ok (cs, some unit)
    else .ok (Char.ofNat unit :: cs, none)

/-- The string that was read. -/
def text (state : Reading) : Except Fault String :=
  state.map fun (cs, _) => String.ofList cs.reverse

end Reading

def hexValue? (c : Char) : Option Nat :=
  if isDigit c then some (digitValue c)
  else if 'a' ≤ c ∧ c ≤ 'f' then some (c.toNat - 'a'.toNat + 10)
  else if 'A' ≤ c ∧ c ≤ 'F' then some (c.toNat - 'A'.toNat + 10)
  else none

/-- The unit written by four hexadecimal digits. -/
def unitValue? (a b c d : Char) : Option Nat := do
  return (((← hexValue? a) * 16 + (← hexValue? b)) * 16 + (← hexValue? c)) * 16 + (← hexValue? d)

/-- The characters with an escape of one letter. -/
def escapeValue? (c : Char) : Option Char :=
  match c with
  | '"' => some '"'
  | '\\' => some '\\'
  | '/' => some '/'
  | 'b' => some '\x08'
  | 'f' => some '\x0c'
  | 'n' => some '\n'
  | 'r' => some '\r'
  | 't' => some '\t'
  | _ => none

def byteSize : List Char → Nat
  | [] => 0
  | c :: rest => c.utf8Size + byteSize rest

/-- The fault of an escape whose digits should follow at the offset: they take four bytes. -/
def unitFault (text : List Char) (offset : Nat) : Fault :=
  if 4 ≤ byteSize (text.take 4) then Malformation.invalidEscape.fault (offset + 4)
  else Malformation.endInString.fault (offset + byteSize text)

/-- Scans a string from inside its quotes. -/
def scanString (state : Reading) : List Char → Nat → Scan String
  | [], offset =>
    let fault := Malformation.endInString.fault offset
    ⟨(state.fail fault).text, .error fault⟩
  | c :: rest, offset =>
    if c = '"' then ⟨(state.unpaired (offset + 1)).text, .ok ⟨rest, offset + 1⟩⟩
    else if c = '\\' then
      match rest with
      | [] =>
        let fault := Malformation.endInString.fault (offset + 1)
        ⟨(state.fail fault).text, .error fault⟩
      | e :: rest =>
        if e = 'u' then
          match rest with
          | a :: b :: c :: d :: rest =>
            match unitValue? a b c d with
            | some unit => scanString (state.pushUnit unit (offset + 6)) rest (offset + 6)
            | none =>
              let fault := unitFault [a, b, c, d] (offset + 2)
              ⟨(state.fail fault).text, .error fault⟩
          | rest =>
            let fault := unitFault rest (offset + 2)
            ⟨(state.fail fault).text, .error fault⟩
        else
          let state := state.unpaired (offset + 2)
          match escapeValue? e with
          | some c => scanString (state.push c) rest (offset + 2)
          | none =>
            let fault := Malformation.invalidEscape.fault (offset + 2)
            ⟨(state.fail fault).text, .error fault⟩
    else
      let state := state.unpaired (offset + 1)
      if c.toNat < 0x20 then
        ⟨(state.fail (Malformation.controlCharacter.fault (offset + 1))).text,
          .error (Malformation.controlCharacter.fault offset)⟩
      else scanString (state.push c) rest (offset + c.utf8Size)

/-! ## Numbers -/

/-- The digits of a significand are gathered up to this number. -/
def greatestSignificand : Nat := Nat.pow 2 64 - 1

/-- The exponent is gathered up to this number. -/
def greatestExponent : Nat := Nat.pow 2 31 - 1

/-- Gathers the digits before the point: the significand, and how many digits it could not take. -/
def gatherWhole : Nat → List Char → Nat × Nat
  | significand, [] => (significand, 0)
  | significand, c :: rest =>
    let next := significand * 10 + digitValue c
    if next ≤ greatestSignificand then gatherWhole next rest else (significand, rest.length + 1)

/-- Gathers the digits after the point as far as the significand takes them, and counts those. -/
def gatherFraction : Nat → Nat → List Char → Nat × Nat
  | significand, taken, [] => (significand, taken)
  | significand, taken, c :: rest =>
    let next := significand * 10 + digitValue c
    if next ≤ greatestSignificand then gatherFraction next (taken + 1) rest
    else (significand, taken)

/-- The value of an exponent's digits, or the offset past the digit that makes it too large. -/
def gatherExponent : Nat → List Char → Nat → Except Nat Nat
  | exponent, [], _ => .ok exponent
  | exponent, c :: rest, offset =>
    let next := exponent * 10 + digitValue c
    if next ≤ greatestExponent then gatherExponent next rest (offset + 1) else .error (offset + 1)

/-- A number without point and exponent whose digits were all gathered. Zero with a minus sign and
what is below the integers of 64 bits are floating point numbers. -/
def integerValue (negative : Bool) (significand : Nat) : Option Number :=
  if !negative then some (.integer significand)
  else if 0 < significand ∧ significand ≤ Nat.pow 2 63 then some (.integer (-significand))
  else (Double.ofNat? significand).map fun x => .float (x.withSign true)

/-- A number with a decimal exponent. -/
def floatValue (negative : Bool) (significand : Nat) (exponent : Int) : Option Number :=
  (Double.ofDecimal? significand exponent).map fun x => .float (x.withSign negative)

/-- The number, or that it is out of range at the offset. -/
def inRange (value : Option Number) (offset : Nat) : Except Fault Number :=
  match value with
  | some n => .ok n
  | none => .error (Malformation.numberOutOfRange.fault offset)

/-- Scans the exponent after its letter, for what was gathered before it. -/
def scanExponent (negative : Bool) (significand : Nat) (exponent : Int) (text : List Char)
    (offset : Nat) : Scan Number :=
  let (down, text, offset) :=
    match text with
    | '+' :: rest => (false, rest, offset + 1)
    | '-' :: rest => (true, rest, offset + 1)
    | rest => (false, rest, offset)
  match text with
  | [] => ⟨.error (Malformation.endInValue.fault offset),
      .error (Malformation.invalidNumber.fault offset)⟩
  | c :: _ =>
    if !isDigit c then .failed (Malformation.invalidNumber.fault (offset + 1))
    else
      let digits := text.takeWhile isDigit
      let stop := offset + digits.length
      { reading :=
          match gatherExponent 0 digits offset with
          | .ok power =>
            inRange (floatValue negative significand (if down then exponent - power else exponent + power))
              stop
          | .error past =>
            if significand ≠ 0 ∧ !down then .error (Malformation.numberOutOfRange.fault past)
            else .ok (.float (.zero negative))
        skipping := .ok ⟨text.dropWhile isDigit, stop⟩ }

/-- Scans what follows the digits after the point. -/
def scanAfterFraction (negative : Bool) (significand : Nat) (exponent : Int) (text : List Char)
    (offset : Nat) : Scan Number :=
  match text with
  | c :: rest =>
    if c = 'e' ∨ c = 'E' then scanExponent negative significand exponent rest (offset + 1)
    else ⟨inRange (floatValue negative significand exponent) offset, .ok ⟨text, offset⟩⟩
  | [] => ⟨inRange (floatValue negative significand exponent) offset, .ok ⟨text, offset⟩⟩

/-- Scans the digits after the point, of which there must be one. -/
def scanFraction (negative : Bool) (significand dropped : Nat) (text : List Char) (offset : Nat) :
    Scan Number :=
  match text with
  | [] => ⟨.error (Malformation.endInValue.fault offset),
      .error (Malformation.invalidNumber.fault offset)⟩
  | c :: _ =>
    if !isDigit c then .failed (Malformation.invalidNumber.fault (offset + 1))
    else
      let digits := text.takeWhile isDigit
      let (significand, taken) := gatherFraction significand 0 digits
      scanAfterFraction negative significand ((dropped : Int) - taken) (text.dropWhile isDigit)
        (offset + digits.length)

/-- Scans what follows the digits before the point. -/
def scanAfterWhole (negative : Bool) (whole : List Char) (text : List Char) (offset : Nat) :
    Scan Number :=
  let (significand, dropped) := gatherWhole 0 whole
  let plain : Scan Number :=
    { reading :=
        inRange (if dropped = 0 then integerValue negative significand
          else floatValue negative significand dropped) offset
      skipping := .ok ⟨text, offset⟩ }
  match text with
  | c :: rest =>
    if c = '.' then scanFraction negative significand dropped rest (offset + 1)
    else if c = 'e' ∨ c = 'E' then scanExponent negative significand dropped rest (offset + 1)
    else plain
  | [] => plain

/-- Scans a number after its sign. A leading zero stands alone before the point. -/
def scanUnsigned (negative : Bool) (text : List Char) (offset : Nat) : Scan Number :=
  match text with
  | [] => ⟨.error (Malformation.endInValue.fault offset),
      .error (Malformation.invalidNumber.fault offset)⟩
  | c :: rest =>
    if c = '0' then
      match rest with
      | d :: _ =>
        if isDigit d then .failed (Malformation.invalidNumber.fault (offset + 2))
        else scanAfterWhole negative ['0'] rest (offset + 1)
      | [] => scanAfterWhole negative ['0'] rest (offset + 1)
    else if isDigit c then
      let digits := text.takeWhile isDigit
      scanAfterWhole negative digits (text.dropWhile isDigit) (offset + digits.length)
    else .failed (Malformation.invalidNumber.fault (offset + 1))

/-- Scans a number. -/
def scanNumber (text : List Char) (offset : Nat) : Scan Number :=
  match text with
  | '-' :: rest => scanUnsigned true rest (offset + 1)
  | text => scanUnsigned false text offset

end Lexeme

end SchemaDoc
