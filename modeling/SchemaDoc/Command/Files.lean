/-!
# Access to files

What the command line asks of a file system, over a monad: `FileAccess` is all it knows of files,
so the same commands run on files in memory and on those of a machine.
-/
namespace SchemaDoc.Command

inductive FileError where
  | notFound
  | exists
  | notDirectory
  | isDirectory
  | nameTooLong
  | notText
  | other (message : String)
deriving DecidableEq, Repr

def FileError.message : FileError → String
  | notFound => "No such file or directory (os error 2)"
  | .exists => "File exists (os error 17)"
  | notDirectory => "Not a directory (os error 20)"
  | isDirectory => "Is a directory (os error 21)"
  | nameTooLong => "File name too long (os error 36)"
  | notText => "stream did not contain valid UTF-8"
  | other message => message

structure FileAccess (m : Type → Type) where
  /-- The text of a file. -/
  read : String → m (Except FileError String)
  /-- Something stands at a path. -/
  isThere : String → m Bool
  /-- A directory stands at a path. -/
  isDirectory : String → m Bool
  /-- The names in a directory. -/
  list : String → m (Except FileError (List String))
  /-- Makes a directory and those around it, where they are not there yet. -/
  createAll : String → m (Except FileError Unit)
  /-- Makes or replaces a file. -/
  write : String → String → m (Except FileError Unit)

end SchemaDoc.Command
