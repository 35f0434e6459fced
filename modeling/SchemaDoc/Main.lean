import SchemaDoc.Command.Run

/-!
# The program

Runs the command line on the files of the machine.
-/
namespace SchemaDoc.Command.Machine

/-- What the system says of a file, by its number for the error where there is one. -/
def fileError (error : IO.Error) : FileError :=
  match error with
  | .noFileOrDirectory _ _ _ => .notFound
  | .alreadyExists _ _ _ => .exists
  | .inappropriateType _ 20 _ => .notDirectory
  | .inappropriateType _ 21 _ => .isDirectory
  | other => .other (toString other)

/-- The result of an action, or what the system says. -/
def attempt {α : Type} (action : IO α) : IO (Except FileError α) := do
  try
    return .ok (← action)
  catch error =>
    return .error (fileError error)

/-- The answer to a question that cannot be asked of what is not there. -/
def answered (question : IO Bool) : IO Bool := do
  try
    question
  catch _ =>
    return false

/-- Access to the files of the machine. -/
def access : FileAccess IO where
  read path := do
    match ← attempt (IO.FS.readBinFile path) with
    | .error error => return .error error
    | .ok bytes =>
      match String.fromUTF8? bytes with
      | some text => return .ok text
      | none => return .error .notText
  isThere path := answered do (← IO.FS.realPath path).pathExists
  isDirectory path := answered do (← IO.FS.realPath path).isDir
  list path := attempt do
    let entries ← (← IO.FS.realPath path).readDir
    return entries.toList.map fun entry => entry.fileName
  createAll path := do
    if path.isEmpty then return .ok ()
    attempt (IO.FS.createDirAll path)
  write path contents := attempt (IO.FS.writeFile path contents)

end SchemaDoc.Command.Machine

def main (words : List String) : IO UInt32 := do
  let output ← IO.getStdout
  let colored :=
    SchemaDoc.Command.Listing.wantsColors (← IO.getEnv "CLICOLOR_FORCE") (← IO.getEnv "NO_COLOR")
      (← IO.getEnv "CLICOLOR") (← output.isTty)
  let completion ← SchemaDoc.Command.run SchemaDoc.Command.Machine.access colored words
  output.putStr completion.output
  (← IO.getStderr).putStr completion.complaint
  return completion.code.toUInt32
