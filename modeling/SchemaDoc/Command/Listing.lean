import SchemaDoc.Issue.Basic
import SchemaDoc.Json.Printer

/-!
# Issues listed for people

A heading with the number of issues and a line for each one, in colors where they are wanted.
-/
namespace SchemaDoc.Command.Listing

/-- A variable of the environment that is set means yes, but for the text `0`. -/
def isOn (value : String) : Bool := value != "0"

/-- Whether colors are wanted, by the variables that force, forbid and allow them and by whether a
person is looking. -/
def wantsColors (force forbid allow : Option String) (onTerminal : Bool) : Bool :=
  if force.any isOn then true
  else if forbid.isSome then false
  else allow.all isOn && onTerminal

/-- Ends all styles. -/
def plainCode : String := "\x1b[0m"

/-- The spans of a text between the places in it where all styles end. -/
def spansOf : List Char → List (List Char)
  | [] => [[]]
  | '\x1b' :: '[' :: '0' :: 'm' :: rest => [] :: spansOf rest
  | c :: rest => (spansOf rest).modifyHead (c :: ·)

def spans (text : String) : List String := (spansOf text.toList).map String.ofList

/-- Text in a style, if colors are wanted. Where the text itself ends all styles, its own begins
anew. -/
def styled (colored : Bool) (code text : String) : String :=
  if colored then
    let opening := "\x1b[" ++ code ++ "m"
    opening ++ (plainCode ++ opening).intercalate (spans text) ++ plainCode
  else text

def redBold : String := "1;31"

def yellowBold : String := "1;33"

def dimmed : String := "2"

def heading (colored : Bool) (count : Nat) : String :=
  styled colored redBold "✗" ++ s!" {count} issue(s)"

def issueLine (colored : Bool) (issue : Issue) : String :=
  let value :=
    match issue.value with
    | some value => " " ++ styled colored dimmed ("(got " ++ value.compact ++ ")")
    | none => ""
  "  " ++ styled colored yellowBold (issue.field.getD "(root)") ++ " " ++ issue.message ++ value

def ofIssues (colored : Bool) (issues : List Issue) : String :=
  "\n".intercalate (heading colored issues.length :: issues.map (issueLine colored))

end SchemaDoc.Command.Listing
