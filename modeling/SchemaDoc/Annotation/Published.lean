import SchemaDoc.Annotation.Generated
import SchemaDoc.Schema.Basic

/-!
# Published annotations

Only titles and descriptions that say something are published: neither blank nor generated.
Examples always are.
-/
namespace SchemaDoc

namespace Annotations

/-- A text that is published. -/
def isPublished (text : String) : Bool := !Text.isBlankText text && !Generated.isGenerated text

/-- The annotations without texts that are not published. -/
def published (notes : Annotations) : Annotations where
  title := notes.title.filter isPublished
  description := notes.description.filter isPublished
  examples := notes.examples

/-- The published annotations, if there are any. -/
def published? (notes : Annotations) : Option Annotations :=
  if notes.published.isEmpty then .none else some notes.published

/-- Writes the published annotations over a document. -/
def overlay (notes : Annotations) (document : Members) : Members :=
  let shown := notes.published
  let titled :=
    match shown.title with
    | some text => Members.put document "title" (.string text)
    | .none => document
  let described :=
    match shown.description with
    | some text => Members.put titled "description" (.string text)
    | .none => titled
  if shown.examples.isEmpty then described
  else Members.put described "examples" (.array shown.examples)

end Annotations

end SchemaDoc
