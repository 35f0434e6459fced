import SchemaDoc.Command.Files
import SchemaDoc.Command.Path
import SchemaDoc.Command.Pattern

/-!
# Inputs that are given by patterns

An input with a wildcard stands for the paths that match it, component by component, in the order
of their names; directories are paths as well. An input without wildcards is a path as it stands,
whether something is there or not.
-/
namespace SchemaDoc.Command

/-- Why the paths of an input cannot be found. -/
inductive ExpansionError where
  | malformed (error : PatternError)
  | unmatched (pattern : String)
  | unlisted (path : String) (error : FileError)
deriving DecidableEq, Repr

def ExpansionError.message : ExpansionError → String
  | malformed error => error.message
  | unmatched pattern => s!"glob pattern matched no files: {pattern}"
  | unlisted path error =>
    s!"attempting to read `{path}` resulted in an error: " ++ error.message

/-- An input with one of these characters is a pattern. -/
def isWildcard (c : Char) : Bool := c == '*' || c == '?' || c == '[' || c == '\x7b'

/-- A path that may lead to matches: it has to match the given patterns from its last component on,
or has matched already. -/
structure Candidate where
  path : String
  isDirectory : Bool
  patterns : Option (List Pattern)

namespace Expansion

variable {m : Type → Type} [Monad m] (files : FileAccess m)

/-- A search fails when a pattern cannot be understood or a directory cannot be listed. -/
abbrev Search (m : Type → Type) := ExceptT ExpansionError m

/-- Paths have fewer components than this, so no search goes deeper. -/
def greatestDepth : Nat := 4096

/-- A name in a directory, without the directory one is in. -/
def childPath (path name : String) : String :=
  if Path.isHere path then name else Path.join path name

/-- The names in a directory, in order. -/
def orderedNames (names : List String) : List String := names.mergeSort fun a b => a ≤ b

/-- The special names that a pattern with a leading point may stand for. -/
def specialNames (pattern : Pattern) : List String :=
  if pattern.head? = some (PatternToken.char '.') then
    ["..", "."].filter fun name => pattern.accepts name.toList
  else []

/-- The candidates in a path for what the patterns from here on stand for, in order. A component
without wildcards needs no listing. -/
def candidates : List Pattern → String → Bool → Search m (List Candidate)
  | [], _, _ => return []
  | pattern :: rest, path, isDirectory => do
    let go (next : String) : Search m (List Candidate) := do
      let nextIsDirectory ← files.isDirectory next
      if rest.isEmpty then return [⟨next, nextIsDirectory, none⟩]
      else candidates rest next nextIsDirectory
    match pattern.literal? with
    | some name =>
      let next := childPath path name
      let found ←
        if name == "." || name == ".." then pure isDirectory else files.isThere next
      if found then go next else return []
    | none =>
      if !isDirectory then return []
      match ← files.list path with
      | .error error => throw (.unlisted path error)
      | .ok names =>
        let special ← (specialNames pattern).mapM fun name => go (Path.join path name)
        let children ← (orderedNames names).mapM fun name => do
          let child := childPath path name
          return ⟨child, ← files.isDirectory child, some (pattern :: rest)⟩
        return special.flatten ++ children

/-- The matches of a candidate, in order, of which only directories count if `onlyDirectories`
says so. -/
def matchesOf (onlyDirectories : Bool) : Nat → Candidate → Search m (List String)
  | 0, _ => return []
  | depth + 1, ⟨path, isDirectory, patterns⟩ => do
    let itself : List String := if onlyDirectories && !isDirectory then [] else [path]
    let byName (patterns : List Pattern) : Search m (List String) := do
      match patterns, Path.fileName? path with
      | pattern :: rest, some name =>
        if !pattern.accepts name.toList then return []
        else if rest.isEmpty then return itself
        else
          let inner ← candidates files rest path isDirectory
          return (← inner.mapM (matchesOf onlyDirectories depth)).flatten
      | _, _ => return []
    match patterns with
    | none => return itself
    | some [] => return []
    | some (pattern :: rest) =>
      if !pattern.isRecursive then byName (pattern :: rest)
      else
        let rest := rest.dropWhile Pattern.isRecursive
        if !isDirectory then byName rest
        else
          let inner ← candidates files (pattern :: rest) path isDirectory
          let deeper ← inner.mapM (matchesOf onlyDirectories depth)
          let own ← if rest.isEmpty then pure [path] else byName rest
          return own ++ deeper.flatten

/-- The paths that match a pattern. -/
def paths (input : String) : Search m (List String) := do
  let understood (text : String) : Search m Pattern :=
    match Pattern.parse text with
    | .ok pattern => return pattern
    | .error error => throw (.malformed error)
  let _ ← understood input
  let absolute := Path.isAbsolute input
  let relative := if absolute then String.ofList (input.toList.drop 1) else input
  let written := Path.components relative
  let closed := written.getLast? = some ""
  let patterns ← (if closed then written.dropLast else written).mapM understood
  let start := if absolute then "/" else "."
  let first ← candidates files patterns start (← files.isDirectory start)
  return (← first.mapM (matchesOf files closed greatestDepth)).flatten

/-- The paths of the inputs, in order. A pattern that matches nothing is an error. -/
def inputs (written : List String) : Search m (List String) := do
  let found ← written.mapM fun input => do
    if input.toList.any isWildcard then
      let found ← paths files input
      if found.isEmpty then throw (.unmatched input) else return found
    else return [input]
  return found.flatten

end Expansion

end SchemaDoc.Command
