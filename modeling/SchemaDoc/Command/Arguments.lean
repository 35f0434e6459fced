import SchemaDoc.Projection.Basic

/-!
# Arguments

The words after the program's name. The first one names a command; options of that command follow,
each at most once but for the inputs. An option's values stand after it, or, then a single one, in
the same word. The words are read in order: a fault before a request for help hides it, and a
request for help hides what comes after.
-/
namespace SchemaDoc.Command

/-- What help is about. -/
inductive HelpTopic where
  | program
  | schema
  | issues
  | help
deriving DecidableEq, Repr

inductive UsageError where
  | noCommand
  | unexpected (word : String)
  | missingValue (option : String)
  | invalidValue (option value : String)
  | repeated (option : String)
  | noInput
deriving DecidableEq, Repr

def UsageError.message : UsageError → String
  | noCommand => "a command is missing"
  | unexpected word => s!"unexpected argument '{word}'"
  | missingValue option => s!"a value is missing for '{option}'"
  | invalidValue option value => s!"invalid value '{value}' for '{option}'"
  | repeated option => s!"'{option}' cannot be used more than once"
  | noInput => "'--input' is missing"

/-- Why no command is to be run. -/
inductive Stop where
  | help (topic : HelpTopic)
  | version
  | misuse (error : UsageError)
deriving DecidableEq, Repr

/-- Writes the schemas of definition files. -/
structure SchemaCommand where
  inputs : List String
  maxDepth : Nat
  metaSchema : Bool
  out : Option String
  /-- Only shows the command. -/
  noOp : Bool
deriving DecidableEq, Repr

/-- Explains the issues of failure trees. -/
structure IssuesCommand where
  inputs : List String
  /-- A list for people rather than a body of an error. -/
  pretty : Bool
  out : Option String
deriving DecidableEq, Repr

/-- What the program is asked to do. -/
inductive Action where
  | schema (command : SchemaCommand)
  | issues (command : IssuesCommand)
deriving DecidableEq, Repr

/-- What the options of a command set. -/
inductive Setting where
  | input
  | maxDepth
  | metaSchema
  | out
  | noOp
  | pretty
  | help
deriving DecidableEq, Repr

namespace Setting

def name : Setting → String
  | input => "input"
  | maxDepth => "max-depth"
  | metaSchema => "meta-schema"
  | out => "out"
  | noOp => "no-op"
  | pretty => "pretty"
  | help => "help"

/-- The single letter that stands for a setting. -/
def letter? : Setting → Option Char
  | input => some 'i'
  | out => some 'o'
  | help => some 'h'
  | _ => none

def takesValue : Setting → Bool
  | input | maxDepth | out => true
  | _ => false

/-- A word can be one more value of a setting that was given some. -/
def takesAfter (setting : Setting) (given : List String) : Bool :=
  match setting with
  | input => true
  | _ => given.isEmpty

/-- The word that sets it. -/
def option (setting : Setting) : String := "--" ++ setting.name

def ofSchema : List Setting := [input, maxDepth, metaSchema, out, noOp, help]

def ofIssues : List Setting := [input, pretty, out, help]

end Setting

/-- What a word is when no value is required in its place. -/
inductive Word where
  /-- Two hyphens alone: no option comes after them. -/
  | stop
  | long (name : String) (value : Option String)
  | short (letter : Char) (rest : List Char)
  | value (text : String)
deriving DecidableEq, Repr

/-- A single hyphen is a value. -/
def Word.ofString (text : String) : Word :=
  match text.toList with
  | ['-', '-'] => .stop
  | '-' :: '-' :: rest =>
    let name := String.ofList (rest.takeWhile (· ≠ '='))
    match rest.dropWhile (· ≠ '=') with
    | [] => .long name none
    | _ :: after => .long name (some (String.ofList after))
  | '-' :: letter :: rest => .short letter rest
  | _ => .value text

/-- The settings of the words read so far. -/
structure Given where
  inputs : List String
  maxDepth : Option Nat
  out : Option String
  /-- The settings without a value. -/
  raised : List Setting
  /-- The setting of the last option, with its values. -/
  waiting : Option (Setting × List String)
  /-- No option comes any more. -/
  closed : Bool
deriving DecidableEq, Repr

namespace Given

def nothing : Given := ⟨[], none, none, [], none, false⟩

/-- A number that fits in a word of 64 bits. It may have a plus sign. -/
def natural? (text : String) : Option Nat :=
  let digits :=
    match text.toList with
    | '+' :: rest => rest
    | all => all
  if digits.isEmpty || !digits.all Char.isDigit then none
  else
    let n := digits.foldl (fun n c => 10 * n + (c.toNat - '0'.toNat)) 0
    if n < Nat.pow 2 64 then some n else none

/-- Gives a setting its values. -/
def assign (given : Given) (setting : Setting) (values : List String) : Except UsageError Given :=
  match setting, values with
  | _, [] => .error (.missingValue setting.option)
  | .input, values => .ok { given with inputs := given.inputs ++ values }
  | .maxDepth, value :: _ =>
    if given.maxDepth.isSome then .error (.repeated setting.option)
    else
      match natural? value with
      | some n => .ok { given with maxDepth := some n }
      | none => .error (.invalidValue setting.option value)
  | .out, value :: _ =>
    if given.out.isSome then .error (.repeated setting.option)
    else if value.isEmpty then .error (.invalidValue setting.option value)
    else .ok { given with out := some value }
  | _, value :: _ => .error (.unexpected value)

/-- Gives the last option its values. -/
def settle (given : Given) : Except UsageError Given :=
  match given.waiting with
  | none => .ok given
  | some (setting, values) => { given with waiting := none }.assign setting values

/-- Raises a setting without a value. -/
def raise (given : Given) (setting : Setting) : Except UsageError Given :=
  if given.raised.contains setting then .error (.repeated setting.option)
  else .ok { given with raised := setting :: given.raised }

/-- An option begins, maybe with a value in its own word. -/
def begin (given : Given) (setting : Setting) (value : Option String) :
    Except UsageError Given := do
  match setting.takesValue, value with
  | true, some value => (← given.settle).assign setting [value]
  | true, none => return { ← given.settle with waiting := some (setting, []) }
  | false, some value => throw (.unexpected value)
  | false, none => (← given.settle).raise setting

/-- The value in the word of an option of one letter. -/
def attached? : List Char → Option String
  | [] => none
  | '=' :: rest => some (String.ofList rest)
  | rest => some (String.ofList rest)

/-- Reads one word for a command with some settings. -/
def step (settings : List Setting) (given : Given) (text : String) : Except UsageError Given :=
  if given.closed then .error (.unexpected text)
  else
    match Word.ofString text with
    | .stop => .ok { given with closed := true }
    | .long name value =>
      match settings.find? fun setting => setting.name == name with
      | some setting => given.begin setting value
      | none => .error (.unexpected text)
    | .short letter rest =>
      match settings.find? fun setting => setting.letter? == some letter with
      | some setting =>
        given.begin setting (if setting.takesValue then attached? rest else none)
      | none => .error (.unexpected text)
    | .value text =>
      match given.waiting with
      | some (setting, values) =>
        if setting.takesAfter values then
          .ok { given with waiting := some (setting, values ++ [text]) }
        else .error (.unexpected text)
      | none => .error (.unexpected text)

/-- Reads the words up to a request for help. -/
def readAll (settings : List Setting) (topic : HelpTopic) : Given → List String → Except Stop Given
  | given, [] =>
    match given.settle with
    | .error error => .error (.misuse error)
    | .ok given => if given.inputs.isEmpty then .error (.misuse .noInput) else .ok given
  | given, word :: rest =>
    match given.step settings word with
    | .error error => .error (.misuse error)
    | .ok next =>
      if next.raised.contains .help then .error (.help topic)
      else readAll settings topic next rest

end Given

namespace Action

/-- Reads the words after `schema`. -/
def ofSchemaWords (words : List String) : Except Stop Action := do
  let given ← Given.readAll Setting.ofSchema .schema Given.nothing words
  return .schema
    ⟨given.inputs, given.maxDepth.getD ProjectionOptions.standard.maxDepth,
      given.raised.contains .metaSchema, given.out, given.raised.contains .noOp⟩

/-- Reads the words after `issues`. -/
def ofIssuesWords (words : List String) : Except Stop Action := do
  let given ← Given.readAll Setting.ofIssues .issues Given.nothing words
  return .issues ⟨given.inputs, given.raised.contains .pretty, given.out⟩

/-- Reads the words after `help`. -/
def helpTopic : List String → Stop
  | [] => .help .program
  | ["schema"] => .help .schema
  | ["issues"] => .help .issues
  | ["help"] => .help .help
  | word :: rest =>
    .misuse (.unexpected (if word ∈ ["schema", "issues", "help"] then rest.headD word else word))

/-- What the words after the program's name ask for. -/
def ofWords : List String → Except Stop Action
  | [] => .error (.misuse .noCommand)
  | "schema" :: words => ofSchemaWords words
  | "issues" :: words => ofIssuesWords words
  | "help" :: words => .error (helpTopic words)
  | word :: _ =>
    match Word.ofString word with
    | .long "help" none => .error (.help .program)
    | .long "version" none => .error .version
    | .short 'h' _ => .error (.help .program)
    | .short 'V' _ => .error .version
    | _ => .error (.misuse (.unexpected word))

end Action

end SchemaDoc.Command
