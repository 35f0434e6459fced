import SchemaDoc.Double.Basic

/-!
# JSON values

Members of an object keep the order in which they were first written. `Members.put` replaces the
value of a name that is there and adds one that is not at the end, so names stay distinct.
`Json.equal` is equality of what is denoted: the order of members does not count, and floating
point numbers compare by value; an integer never equals a floating point number.
-/
namespace SchemaDoc

/-- A JSON number: an integer, or a finite floating point number. -/
inductive Number where
  | integer (value : Int)
  | float (value : Double)
deriving DecidableEq

inductive Json where
  | null
  | bool (value : Bool)
  | number (value : Number)
  | string (value : String)
  | array (items : List Json)
  | object (members : List (String × Json))

instance : Inhabited Json := ⟨.null⟩

/-- The members of an object, in order. -/
abbrev Members := List (String × Json)

namespace Number

/-- An integral number between `-2 ^ 63` and `2 ^ 63` as an integer, the upper end as the greatest
integer of 64 bits; any other number as it is. -/
def ofDouble (x : Double) : Number :=
  match x.toInt? with
  | some n =>
    let bound : Int := Nat.pow 2 63
    if -bound ≤ n ∧ n ≤ bound then integer (min n (bound - 1)) else float x
  | none => float x

/-- The nearest floating point value. -/
def toBinary64 : Number → Binary64
  | integer n => .ofInt n
  | float x => .finite x

/-- Equality of integers, or numeric equality of floating point numbers. -/
def equal : Number → Number → Bool
  | integer a, integer b => a == b
  | float x, float y => x.equal y
  | _, _ => false

end Number

namespace Members

/-- The value of a name. -/
def get? (members : Members) (name : String) : Option Json := members.lookup name

/-- Replaces the value of a name, or adds the name at the end. -/
def put : Members → String → Json → Members
  | [], name, value => [(name, value)]
  | (other, old) :: rest, name, value =>
    if other = name then (name, value) :: rest else (other, old) :: put rest name value

/-- Puts one member after the other. -/
def putAll (members added : Members) : Members :=
  added.foldl (fun acc member => put acc member.1 member.2) members

/-- The members of an object written out in order: a repeated name keeps its first place and its
last value. -/
def ofList (written : List (String × Json)) : Members := putAll [] written

/-- A member that is only there if its value is. -/
def ofOption (name : String) : Option Json → Members
  | some value => [(name, value)]
  | none => []

def names (members : Members) : List String := members.map Prod.fst

end Members

namespace Json

def ofString (text : String) : Json := string text

/-- A floating point value as a number, integral ones as integers where they fit; `null` when it
is not finite. -/
def ofBinary64 : Binary64 → Json
  | .finite x => number (.ofDouble x)
  | _ => null

def ofNat (n : Nat) : Json := number (.integer n)

/-- The members of an object. -/
def members? : Json → Option Members
  | object members => some members
  | _ => none

/-- The value of a member, if the value is an object that has it. -/
def get? (value : Json) (name : String) : Option Json :=
  value.members?.bind (Members.get? · name)

def items? : Json → Option (List Json)
  | array items => some items
  | _ => none

def string? : Json → Option String
  | string text => some text
  | _ => none

mutual

def equal : Json → Json → Bool
  | null, null => true
  | bool a, bool b => a == b
  | number a, number b => a.equal b
  | string a, string b => a == b
  | array xs, array ys => equalItems xs ys
  | object xs, object ys => xs.length == ys.length && equalMembers xs ys
  | _, _ => false

def equalItems : List Json → List Json → Bool
  | [], [] => true
  | x :: xs, y :: ys => equal x y && equalItems xs ys
  | _, _ => false

/-- Every member has an equal one among the others. -/
def equalMembers : List (String × Json) → List (String × Json) → Bool
  | [], _ => true
  | (name, value) :: rest, others =>
    (match others.lookup name with
      | some other => equal value other
      | none => false) && equalMembers rest others

end

end Json

end SchemaDoc
