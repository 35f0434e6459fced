import SchemaDoc.Json.Basic
import SchemaDoc.Text.Blank

/-!
# Failure trees and issues

An `IssueTree` mirrors the schema that rejected a value: wrappers name the parts that were entered,
composites hold the failures of several alternatives or parts, and the leaves say what was wrong.
`IssueTree.issues` lists the leaves in order, each with the path of the wrappers around it.
-/
namespace SchemaDoc

inductive IssueTree where
  | typeMismatch (expectation : String) (actual : Option Json)
  | missing (actual : Option Json)
  /-- A failure inside the named part. -/
  | within (segment : String) (inner : IssueTree)
  | composite (children : List IssueTree)
  | refinement (expectation : String) (actual : Option Json)

/-- A failure with its address. The field is the path in one text. -/
structure Issue where
  field : Option String
  message : String
  path : List String
  value : Option Json

/-- The body of the response to a rejected value. -/
structure ErrorBody where
  message : String
  issues : List Issue

namespace Issue

def genericMessage : String := "validation failed"

def missingMessage : String := "is missing"

/-- The message for an expectation: the expectation itself unless it is blank. -/
def messageOf (expectation : String) : String :=
  if Text.isBlankText expectation then genericMessage else expectation

/-- A path as the name of a field; the root has none. -/
def fieldOf (path : List String) : Option String :=
  if path.isEmpty then none else some (".".intercalate path)

/-- The issue of a leaf under a path. -/
def ofLeaf (message : String) (path : List String) (value : Option Json) : Issue :=
  ⟨fieldOf path, message, path, value⟩

/-- The issue in one line. -/
def line (issue : Issue) : String := issue.field.getD "(root)" ++ ": " ++ issue.message

end Issue

namespace IssueTree

/-- The tree inside one wrapper for each segment, the first one outermost. -/
def withinAll (segments : List String) (inner : IssueTree) : IssueTree :=
  segments.foldr within inner

mutual

/-- The issues of a tree that stands under a path. -/
def issuesUnder (path : List String) : IssueTree → List Issue
  | typeMismatch expectation actual => [.ofLeaf (Issue.messageOf expectation) path actual]
  | refinement expectation actual => [.ofLeaf (Issue.messageOf expectation) path actual]
  | missing actual => [.ofLeaf Issue.missingMessage path actual]
  | within segment inner => inner.issuesUnder (path ++ [segment])
  | composite children => issuesOfAll path children

def issuesOfAll (path : List String) : List IssueTree → List Issue
  | [] => []
  | child :: rest => child.issuesUnder path ++ issuesOfAll path rest

end

/-- The issues of a tree, in the order of its leaves. -/
def issues (tree : IssueTree) : List Issue := tree.issuesUnder []

end IssueTree

namespace ErrorBody

def standardMessage : String := "Validation failed"

def ofIssues (issues : List Issue) : ErrorBody := ⟨standardMessage, issues⟩

def ofTree (tree : IssueTree) : ErrorBody := ofIssues tree.issues

end ErrorBody

end SchemaDoc
