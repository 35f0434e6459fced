/-!
# Patterns for names

In a pattern `?` stands for any character, `*` for any characters, and a class in brackets for one
of its characters or, after `!`, for none of them. `**` must be a whole component and stands for
any directories. Unlike names in general, all characters of a name may be matched, a leading point
included.
-/
namespace SchemaDoc.Command

/-- The characters from one to another; a single one is a range as well. -/
structure CharRange where
  first : Char
  last : Char
deriving DecidableEq, Repr

inductive PatternToken where
  | char (c : Char)
  | anyChar
  | anySequence
  | anyDirectories
  | within (ranges : List CharRange)
  | outside (ranges : List CharRange)
deriving DecidableEq, Repr

/-- The character that a token without a wildcard stands for. -/
def PatternToken.char? : PatternToken → Option Char
  | .char c => some c
  | _ => none

/-- Why a pattern cannot be understood, with the place of the fault. -/
inductive PatternError where
  | tooManyStars (place : Nat)
  | misplacedDirectories (place : Nat)
  | unfinishedClass (place : Nat)
deriving DecidableEq, Repr

def PatternError.message (error : PatternError) : String :=
  let (place, reason) :=
    match error with
    | tooManyStars place => (place, "wildcards are either regular `*` or recursive `**`")
    | misplacedDirectories place =>
      (place, "recursive wildcards must form a single path component")
    | unfinishedClass place => (place, "invalid range pattern")
  s!"Pattern syntax error near position {place}: {reason}"

/-- A pattern for a name or a path. -/
abbrev Pattern := List PatternToken

namespace Pattern

/-- The ranges of a class: three characters with a hyphen in the middle are a range, any other
character is itself. -/
def ranges : List Char → List CharRange
  | a :: '-' :: b :: rest => ⟨a, b⟩ :: ranges rest
  | a :: rest => ⟨a, a⟩ :: ranges rest
  | [] => []

/-- The class after an opening bracket, and what follows its closing one. A bracket that comes
first belongs to the class. -/
def class? (text : List Char) : Option (PatternToken × List Char) :=
  match text with
  | '!' :: c :: rest =>
    let inside := rest.takeWhile (· ≠ ']')
    match rest.dropWhile (· ≠ ']') with
    | _ :: after => some (.outside (ranges (c :: inside)), after)
    | [] => none
  | c :: rest =>
    if c = '!' then none
    else
      let inside := rest.takeWhile (· ≠ ']')
      match rest.dropWhile (· ≠ ']') with
      | _ :: after => some (.within (ranges (c :: inside)), after)
      | [] => none
  | [] => none

/-- The rest of a pattern of which a number of characters, the last one of them given, were
taken. -/
def parseFrom : Nat → Nat → Option Char → List Char → Except PatternError Pattern
  | 0, _, _, _ => .ok []
  | _ + 1, _, _, [] => .ok []
  | fuel + 1, place, previous, c :: rest =>
    if c = '?' then do return .anyChar :: (← parseFrom fuel (place + 1) (some c) rest)
    else if c = '*' then
      let after := rest.dropWhile (· = '*')
      let count := rest.length - after.length + 1
      if 2 < count then .error (.tooManyStars (place + 2))
      else if count = 1 then do
        return .anySequence :: (← parseFrom fuel (place + 1) (some c) rest)
      else if previous.all (· = '/') then
        match after with
        | [] => .ok [.anyDirectories]
        | '/' :: others => do
          return .anyDirectories :: (← parseFrom fuel (place + 3) (some '/') others)
        | _ => .error (.misplacedDirectories (place + 2))
      else .error (.misplacedDirectories (place - 1))
    else if c = '[' then
      match class? rest with
      | some (token, after) => do
        let length := rest.length - after.length + 1
        return token :: (← parseFrom fuel (place + length) (some ']') after)
      | none => .error (.unfinishedClass place)
    else do return .char c :: (← parseFrom fuel (place + 1) (some c) rest)

/-- Understands a pattern. -/
def parse (text : String) : Except PatternError Pattern :=
  parseFrom (text.length + 1) 0 none text.toList

/-- The pattern stands for any directories. -/
def isRecursive (pattern : Pattern) : Bool := pattern.contains PatternToken.anyDirectories

/-- The only text a pattern without wildcards stands for. -/
def literal? (pattern : Pattern) : Option String :=
  (pattern.mapM PatternToken.char?).map String.ofList

def inRanges (ranges : List CharRange) (c : Char) : Bool :=
  ranges.any fun range => range.first ≤ c && c ≤ range.last

/-- One character is what a token stands for. -/
def matchesChar (token : PatternToken) (c : Char) : Bool :=
  match token with
  | .char other => c = other
  | .anyChar => true
  | .within ranges => inRanges ranges c
  | .outside ranges => !inRanges ranges c
  | .anySequence => false
  | .anyDirectories => false

/-- For each tail of a list, whether its own value or one further on is true. -/
def onward : List Bool → List Bool
  | [] => []
  | value :: rest =>
    let others := onward rest
    (value || others.headD false) :: others

/-- For each tail of a name, the longest one first, whether its first character is what a token
stands for and what follows has the given value. -/
def consumed (token : PatternToken) : List Char → List Bool → List Bool
  | c :: name, _ :: after =>
    (matchesChar token c && after.headD false) :: consumed token name after
  | _, _ => [false]

/-- For each tail of a name, in which there are no slashes, whether the pattern stands for it. The
longest tail, the name itself, comes first. -/
def acceptedTails (name : List Char) : Pattern → List Bool
  | [] => List.replicate name.length false ++ [true]
  | token :: rest =>
    let after := acceptedTails name rest
    match token with
    | .anySequence => onward after
    | .anyDirectories => after
    | token => consumed token name after

/-- The pattern stands for a name. -/
def accepts (pattern : Pattern) (name : List Char) : Bool :=
  (acceptedTails name pattern).headD false

end Pattern

end SchemaDoc.Command
