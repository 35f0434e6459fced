/-!
# Paths

Paths are texts whose components stand between slashes. Empty components and, but for the first
one, those that are a single point say nothing.
-/
namespace SchemaDoc.Command.Path

/-- The components of a path, empty ones included. -/
def components (path : String) : List String := path.splitOn "/"

def isAbsolute (path : String) : Bool := path.toList.head? = some '/'

/-- The path is another way to write the directory one is in. -/
def isHere (path : String) : Bool :=
  match components path with
  | "." :: rest => rest.all fun part => part.isEmpty || part == "."
  | _ => false

/-- A name inside the directory of a path. -/
def join (path name : String) : String :=
  if path.isEmpty then name
  else if path.toList.getLast? = some '/' then path ++ name
  else path ++ "/" ++ name

/-- A character list without slashes, and points that stand alone, at its end; the list is given
last character first. -/
def trimReversed : List Char → List Char
  | '/' :: rest => trimReversed rest
  | '.' :: '/' :: rest => trimReversed ('/' :: rest)
  | other => other
termination_by cs => cs.length

/-- The last component, which is not the way back to the directory around. -/
def fileName? (path : String) : Option String :=
  let name := (trimReversed path.toList.reverse).takeWhile (· ≠ '/')
  let text := String.ofList name.reverse
  if text.isEmpty || text == ".." || text == "." then none else some text

/-- The path without its last component. -/
def parent? (path : String) : Option String :=
  match trimReversed path.toList.reverse with
  | [] => none
  | trimmed =>
    match trimmed.dropWhile (· ≠ '/') with
    | [] => some ""
    | rest =>
      match trimReversed rest with
      | [] => some "/"
      | kept => some (String.ofList kept.reverse)

end SchemaDoc.Command.Path
