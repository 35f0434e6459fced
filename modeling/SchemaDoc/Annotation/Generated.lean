import SchemaDoc.Text.Blank
import SchemaDoc.Text.Word

/-!
# Generated annotations

Titles and descriptions that look as if a machine wrote them are told by four forms: the bare name
of a type, a constraint written as a call, a phrase that constraints are described by, and a type
after an article. Letters are compared up to simple case folding, except in calls. The test is a
plain heuristic and also takes some text that a person wrote.
-/
namespace SchemaDoc.Generated

open Text

/-- Simple case folding, as far as it reaches the letters of ASCII: two other characters fold to
such letters. -/
def foldChar (c : Char) : Char :=
  if c = '\u017f' then 's' else if c = '\u212a' then 'k' else c.toLower

def fold (text : List Char) : List Char := text.map foldChar

/-- The text begins with the given letters up to case; what follows them. -/
def afterFolded? : List Char → List Char → Option (List Char)
  | [], text => some text
  | _ :: _, [] => none
  | letter :: word, c :: rest => if foldChar c = letter then afterFolded? word rest else none

/-! ## Bare names -/

def bareNames : List String :=
  ["string", "number", "boolean", "bigint", "symbol", "object", "array", "void", "undefined",
    "unknown", "any", "never", "null", "integer", "int", "literal", "struct", "union", "tuple",
    "record"]

/-- The text is the name of a type between blanks. -/
def isBareName (text : List Char) : Bool :=
  let folded := fold (trim text)
  bareNames.any fun name => folded == name.toList

/-! ## Calls -/

def isLetter (c : Char) : Bool := ('a' ≤ c && c ≤ 'z') || ('A' ≤ c && c ≤ 'Z')

def isLetterOrDigit (c : Char) : Bool := isLetter c || ('0' ≤ c && c ≤ '9')

/-- The text is a name with arguments in parentheses, between blanks. The arguments are on one
line and go up to the last parenthesis. -/
def isCall (text : List Char) : Bool :=
  match trim text with
  | [] => false
  | c :: rest =>
    isLetter c &&
      match rest.dropWhile isLetterOrDigit with
      | '(' :: inside =>
        match inside.reverse with
        | ')' :: arguments => !arguments.contains '\n'
        | _ => false
      | _ => false

/-! ## Phrases -/

def phrases : List String :=
  ["greater than", "less than", "character(s)", "item(s)", "matching the pattern"]

/-- A property holds of what remains of a text after leaving out some characters at its start. -/
def anyTail (p : List Char → Bool) : List Char → Bool
  | [] => p []
  | c :: rest => p (c :: rest) || anyTail p rest

/-- The text contains a phrase that describes a constraint. -/
def hasPhrase (text : List Char) : Bool :=
  phrases.any fun phrase => anyTail (fun tail => (afterFolded? phrase.toList tail).isSome) text

/-! ## Types after an article -/

def articleTypes : List String :=
  ["string", "number", "integer", "boolean", "bigint", "array", "object", "finite number"]

/-- Not in the middle of a word, given that a word character comes before. -/
def endsWord (rest : List Char) : Bool :=
  match rest with
  | [] => true
  | c :: _ => !isWordChar c

/-- Blanks, at least one; what follows them. -/
def afterBlanks? (text : List Char) : Option (List Char) :=
  match text with
  | [] => none
  | c :: rest => if isBlank c then some (trimStart rest) else none

/-- The text begins with the name of a type, as a whole word, or with a word that is called
non-empty. -/
def beginsWithType (text : List Char) : Bool :=
  (articleTypes.any fun name =>
    match afterFolded? name.toList text with
    | some rest => endsWord rest
    | none => false) ||
  match (afterFolded? "non-empty".toList text).bind afterBlanks? with
  | some (c :: _) => isWordChar c
  | _ => false

/-- After blanks, the text begins with an article, blanks and a type. -/
def beginsWithArticle (text : List Char) : Bool :=
  let start := trimStart text
  (["a", "an"]).any fun article =>
    match (afterFolded? article.toList start).bind afterBlanks? with
    | some rest => beginsWithType rest
    | none => false

/-- The text has one of the forms of generated annotations. -/
def isGenerated (text : String) : Bool :=
  let chars := text.toList
  isBareName chars || isCall chars || hasPhrase chars || beginsWithArticle chars

end SchemaDoc.Generated
