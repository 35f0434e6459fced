import SchemaDoc.Proofs.Json.Alike
import SchemaDoc.Proofs.Json.Members
import SchemaDoc.Proofs.Projection.Congruence
import SchemaDoc.Proofs.Projection.Documents

/-!
# Coherent documents

What the members of a schema document owe to one another: alternatives that differ, values of the
type that is named, required names among the properties, bounds that fit each other and the number
of items. `Json.CoherentThroughout` asks for this at every schema of a document, and each way of
making documents passes it on. Hints and annotations may be written over a coherent document as
long as they leave alone the members that it is about.
-/
namespace SchemaDoc

namespace Members

/-- A schema in a document, one step inside. -/
inductive Inner (document : Members) : Json → Prop
  | property {properties : Members} {name : String} {inner : Json} :
      document.get? "properties" = some (.object properties) → (name, inner) ∈ properties →
      Inner document inner
  | additionalProperties {members : Members} :
      document.get? "additionalProperties" = some (.object members) →
      Inner document (.object members)
  | items {members : Members} : document.get? "items" = some (.object members) →
      Inner document (.object members)
  | item {entries : List Json} {inner : Json} : document.get? "items" = some (.array entries) →
      inner ∈ entries → Inner document inner
  | additionalItems {inner : Json} : document.get? "additionalItems" = some inner →
      Inner document inner
  | alternative {arms : List Json} {inner : Json} : document.get? "oneOf" = some (.array arms) →
      inner ∈ arms → Inner document inner

/-- The members of one schema fit each other. -/
structure Coherent (document : Members) : Prop where
  /-- There are at least two alternatives, no two of them alike. -/
  oneOf : ∀ value, document.get? "oneOf" = some value → ∃ arms, value = .array arms ∧
    2 ≤ arms.length ∧ arms.Pairwise fun arm later => ¬ arm.Alike later
  /-- Values are of the type that is named, and none is repeated. -/
  enum : ∀ value, document.get? "enum" = some value → ∃ values scalar, value = .array values ∧
    document.get? "type" = some (.string scalar) ∧ values ≠ [] ∧
    (values.Pairwise fun one later => later.equal one = false) ∧
    ∀ one ∈ values, one.typeName = scalar
  /-- Required are some of the properties, in their order. -/
  properties : ∀ value, document.get? "properties" = some value →
    ∃ (properties : Members) (required : List String), value = .object properties ∧
      document.get? "required" = some (.array (required.map .string)) ∧
      required.Nodup ∧ required.Sublist properties.names
  bounds : ∀ least most, document.get? "minItems" = some least →
    document.get? "maxItems" = some most → ∃ m n, least = .ofNat m ∧ most = .ofNat n ∧ m ≤ n
  /-- Positional items are not exactly one; they are as many as there may be unless more may
  follow, and at least as many as there must be. -/
  items : ∀ entries, document.get? "items" = some (.array entries) → entries.length ≠ 1 ∧
    (document.get? "additionalItems" = none →
      document.get? "maxItems" = some (.ofNat entries.length)) ∧
    ∃ m, document.get? "minItems" = some (.ofNat m) ∧ m ≤ entries.length

/-- The names of the members that coherence is about. -/
def structural : List String :=
  ["type", "properties", "required", "additionalProperties", "items", "additionalItems",
    "minItems", "maxItems", "enum", "oneOf"]

/-- The names of the members that hold the schemas inside. -/
def holding : List String :=
  ["properties", "additionalProperties", "items", "additionalItems", "oneOf"]

theorem holding_subset_structural : holding ⊆ structural := by decide

variable {document other : Members}

theorem Coherent.of_get?_eq (h : document.Coherent)
    (same : ∀ name ∈ structural, other.get? name = document.get? name) : other.Coherent where
  oneOf := by
    rw [same "oneOf" (by decide)]
    exact h.oneOf
  enum := by
    rw [same "enum" (by decide), same "type" (by decide)]
    exact h.enum
  properties := by
    rw [same "properties" (by decide), same "required" (by decide)]
    exact h.properties
  bounds := by
    rw [same "minItems" (by decide), same "maxItems" (by decide)]
    exact h.bounds
  items := by
    rw [same "items" (by decide), same "additionalItems" (by decide), same "maxItems" (by decide),
      same "minItems" (by decide)]
    exact h.items

theorem Inner.of_get?_eq {inner : Json} (h : other.Inner inner)
    (same : ∀ name ∈ holding, other.get? name = document.get? name) : document.Inner inner := by
  cases h with
  | property found mem => exact .property ((same "properties" (by decide)).symm.trans found) mem
  | additionalProperties found =>
    exact .additionalProperties ((same "additionalProperties" (by decide)).symm.trans found)
  | items found => exact .items ((same "items" (by decide)).symm.trans found)
  | item found mem => exact .item ((same "items" (by decide)).symm.trans found) mem
  | additionalItems found =>
    exact .additionalItems ((same "additionalItems" (by decide)).symm.trans found)
  | alternative found mem => exact .alternative ((same "oneOf" (by decide)).symm.trans found) mem

end Members

namespace Json

/-- The schemas of a document, however deep. -/
inductive Position (root : Json) : Json → Prop
  | root : Position root root
  | inner {document : Members} {inner : Json} : Position root (.object document) →
      document.Inner inner → Position root inner

/-- The value is a coherent schema, and so are all schemas in it. -/
inductive CoherentThroughout : Json → Prop
  | object {document : Members} : document.Coherent →
      (∀ inner, document.Inner inner → CoherentThroughout inner) →
      CoherentThroughout (.object document)

theorem CoherentThroughout.of_position {root position : Json} (h : root.CoherentThroughout)
    (reached : root.Position position) : position.CoherentThroughout := by
  induction reached with
  | root => exact h
  | inner _ step ih =>
    cases ih with
    | object _ inside => exact inside _ step

/-! ## Values without repeated names -/

theorem Unambiguous.put {members : Members} (h : (Json.object members).Unambiguous) (name : String)
    {value : Json} (hvalue : value.Unambiguous) :
    (Json.object (members.put name value)).Unambiguous := by
  refine .object (Members.nodup_names_put h.nodup name value) fun member mem => ?_
  rcases Members.mem_put mem with mem | rfl
  · exact h.of_mem mem
  · exact hvalue

theorem Unambiguous.putAll {members added : Members} (h : (Json.object members).Unambiguous)
    (hadded : ∀ member ∈ added, member.2.Unambiguous) :
    (Json.object (members.putAll added)).Unambiguous := by
  induction added generalizing members with
  | nil => exact h
  | cons member rest ih =>
    obtain ⟨hvalue, hrest⟩ := List.forall_mem_cons.mp hadded
    exact ih (h.put member.1 hvalue) hrest

end Json

/-- A document that is coherent throughout, and whose objects name their members once. -/
structure Members.Sound (document : Members) : Prop where
  unambiguous : (Json.object document).Unambiguous
  coherent : (Json.object document).CoherentThroughout

namespace Members.Sound

variable {document other : Members}

/-- Members that coherence is not about may be added and replaced. -/
theorem of_get?_eq (h : document.Sound) (unambiguous : (Json.object other).Unambiguous)
    (same : ∀ name ∈ structural, other.get? name = document.get? name) : other.Sound := by
  refine ⟨unambiguous, ?_⟩
  cases h.coherent with
  | object coherent inside =>
    exact .object (coherent.of_get?_eq same) fun inner hinner =>
      inside inner (hinner.of_get?_eq fun name mem => same name (holding_subset_structural mem))

theorem putAll (h : document.Sound) {added : Members}
    (hadded : ∀ member ∈ added, member.1 ∉ structural ∧ member.2.Unambiguous) :
    (document.putAll added).Sound :=
  h.of_get?_eq (h.unambiguous.putAll fun member mem => (hadded member mem).2) fun _ hname =>
    get?_putAll_of_not_mem
      (fun member mem => (ne_of_mem_of_not_mem hname (hadded member mem).1).symm) document

/-- Without the members that can be wrong or hold schemas, nothing is wrong. -/
theorem of_absent (unambiguous : (Json.object document).Unambiguous)
    (absent : ∀ name ∈ structural, name ≠ "type" → document.get? name = none) :
    document.Sound := by
  have none : ∀ name ∈ structural, name ≠ "type" → ∀ value, document.get? name ≠ some value := by
    intro name mem different value found
    rw [absent name mem different] at found
    cases found
  refine ⟨unambiguous, .object ⟨?_, ?_, ?_, ?_, ?_⟩ fun inner h => ?_⟩
  · exact fun value found => absurd found (none _ (by decide) (by decide) value)
  · exact fun value found => absurd found (none _ (by decide) (by decide) value)
  · exact fun value found => absurd found (none _ (by decide) (by decide) value)
  · exact fun least most found => absurd found (none _ (by decide) (by decide) least)
  · exact fun entries found => absurd found (none _ (by decide) (by decide) _)
  · exfalso
    cases h with
    | property found => exact none _ (by decide) (by decide) _ found
    | additionalProperties found => exact none _ (by decide) (by decide) _ found
    | items found => exact none _ (by decide) (by decide) _ found
    | item found => exact none _ (by decide) (by decide) _ found
    | additionalItems found => exact none _ (by decide) (by decide) _ found
    | alternative found => exact none _ (by decide) (by decide) _ found

end Members.Sound

end SchemaDoc
