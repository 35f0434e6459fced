import SchemaDoc.Command.Files
import SchemaDoc.Command.Path

/-!
# Files in memory

A tree of files below the directory one is in. Of what lies around that directory nothing is known:
paths that lead there, absolute ones among them, end in directories in which nothing is found.
-/
namespace SchemaDoc.Command

inductive Entry where
  | file (bytes : ByteArray)
  | directory

/-- The entries of a tree, each under the names that lead to it. -/
structure FileTree where
  entries : List (List String × Entry)

namespace FileTree

inductive Place where
  | outside
  | inside (names : List String)
deriving DecidableEq, Repr

/-- A name has at most this many bytes. -/
def greatestNameSize : Nat := 255

/-- A path has at most this many bytes. -/
def greatestPathSize : Nat := 4095

/-- The tree's own directory is always there. -/
def entry? (tree : FileTree) : List String → Option Entry
  | [] => some .directory
  | names => tree.entries.lookup names

/-- Puts an entry in the place of the one of these names, or adds it. -/
def put (tree : FileTree) (names : List String) (entry : Entry) : FileTree :=
  ⟨tree.entries.filter (fun e => e.1 ≠ names) ++ [(names, entry)]⟩

/-- Where one component of a path leads from a place, which has to be a directory. -/
def step (tree : FileTree) (place : Place) (part : String) : Except FileError Place :=
  match place with
  | .outside =>
    if part.isEmpty || part == "." || part == ".." then .ok .outside else .error .notFound
  | .inside names =>
    match tree.entry? names with
    | none => .error .notFound
    | some (.file _) => .error .notDirectory
    | some .directory =>
      if part.isEmpty || part == "." then .ok (.inside names)
      else if part == ".." then .ok (if names.isEmpty then .outside else .inside names.dropLast)
      else if greatestNameSize < part.utf8ByteSize then .error .nameTooLong
      else
        match tree.entry? (names ++ [part]) with
        | some _ => .ok (.inside (names ++ [part]))
        | none => .error .notFound

/-- Where a path begins. -/
def start (path : String) : Except FileError Place :=
  if path.isEmpty then .error .notFound
  else if greatestPathSize < path.utf8ByteSize then .error .nameTooLong
  else .ok (if Path.isAbsolute path then .outside else .inside [])

/-- The place of a path. -/
def resolve (tree : FileTree) (path : String) : Except FileError Place := do
  (Path.components path).foldlM tree.step (← start path)

def isThere (tree : FileTree) (path : String) : Bool :=
  match tree.resolve path with
  | .ok _ => true
  | .error _ => false

def isDirectory (tree : FileTree) (path : String) : Bool :=
  match tree.resolve path with
  | .ok place =>
    match tree.step place "." with
    | .ok _ => true
    | .error _ => false
  | .error _ => false

/-- The text of a file. -/
def read (tree : FileTree) (path : String) : Except FileError String := do
  match ← tree.resolve path with
  | .outside => .error .isDirectory
  | .inside names =>
    match tree.entry? names with
    | none => .error .notFound
    | some .directory => .error .isDirectory
    | some (.file bytes) =>
      match String.fromUTF8? bytes with
      | some text => .ok text
      | none => .error .notText

/-- The names in a directory. -/
def list (tree : FileTree) (path : String) : Except FileError (List String) := do
  match ← tree.step (← tree.resolve path) "." with
  | .outside => .ok []
  | .inside names =>
    .ok (tree.entries.filterMap fun (place, _) =>
      match place.getLast? with
      | some name => if place.dropLast = names then some name else none
      | none => none)

/-- Goes on from a place by one component, which is made a directory if nothing is there. -/
def createStep (reached : FileTree × Place) (part : String) :
    Except FileError (FileTree × Place) :=
  let (tree, place) := reached
  match tree.step place part with
  | .ok next => .ok (tree, next)
  | .error .notFound =>
    match place with
    | .outside => .ok (tree, .outside)
    | .inside names =>
      let names := names ++ [part]
      .ok (tree.put names .directory, .inside names)
  | .error error => .error error

/-- Makes the directories on the way of a path that are not there yet. -/
def createAll (tree : FileTree) (path : String) : Except FileError FileTree := do
  if path.isEmpty then return tree
  let (tree, place) ← (Path.components path).foldlM createStep (tree, ← start path)
  match tree.step place "." with
  | .ok _ => return tree
  | .error _ => throw .exists

/-- Goes on from a place by one component towards a file that is to be made. What lies outside is
taken to be there. -/
def approach (tree : FileTree) (place : Place) (part : String) : Except FileError Place :=
  match place with
  | .outside => .ok .outside
  | .inside names => tree.step (.inside names) part

/-- Makes or replaces a file, in a directory that has to be there. -/
def write (tree : FileTree) (path contents : String) : Except FileError FileTree := do
  let first ← start path
  let parts := Path.components path
  match parts.reverse.dropWhile String.isEmpty with
  | [] => throw .isDirectory
  | name :: around =>
    let place ← tree.approach (← around.reverse.foldlM tree.approach first) "."
    if around.length + 1 < parts.length || name == "." || name == ".." then throw .isDirectory
    else if greatestNameSize < name.utf8ByteSize then throw .nameTooLong
    else
      match place with
      | .outside => return tree
      | .inside names =>
        match tree.entry? (names ++ [name]) with
        | some .directory => throw .isDirectory
        | _ => return tree.put (names ++ [name]) (.file contents.toUTF8)

/-- The names on the way of a path. -/
def namesOf (path : String) : List String :=
  (Path.components path).filter fun part => !part.isEmpty && part != "."

/-- Puts a file and the directories on its way. -/
def putFile (tree : FileTree) (path : String) (bytes : ByteArray) : FileTree :=
  let names := namesOf path
  let around := (List.range names.length).drop 1 |>.map names.take
  (around.foldl (fun tree names => tree.put names .directory) tree).put names (.file bytes)

def ofFiles (files : List (String × ByteArray)) : FileTree :=
  files.foldl (fun tree file => tree.putFile file.1 file.2) ⟨[]⟩

/-- The files of a tree and their paths. -/
def files (tree : FileTree) : List (String × ByteArray) :=
  tree.entries.filterMap fun (names, entry) =>
    match entry with
    | .file bytes => some ("/".intercalate names, bytes)
    | .directory => none

/-- Runs a change of a tree, which fails with nothing changed. -/
def change (f : FileTree → Except FileError FileTree) : StateM FileTree (Except FileError Unit) := do
  match f (← get) with
  | .ok tree =>
    set tree
    return .ok ()
  | .error error => return .error error

/-- Access to the files of a tree. -/
def access : FileAccess (StateM FileTree) where
  read path := return (← get).read path
  isThere path := return (← get).isThere path
  isDirectory path := return (← get).isDirectory path
  list path := return (← get).list path
  createAll path := change fun tree => tree.createAll path
  write path contents := change fun tree => tree.write path contents

end FileTree

end SchemaDoc.Command
