import SchemaDoc.Proofs.Double.Values
import SchemaDoc.Proofs.Projection.NamedOnce
import SchemaDoc.Proofs.Projection.UnionOrder

/-!
# What a discriminator promises

Where a document names a discriminator, its alternatives are objects with a property by that name,
and the property of one of them excludes that of another. The search for a discriminator compares
the values that properties enumerate with `Json.equal`, while a schema compares numbers by what
they denote. This makes no difference, since all values that projections enumerate are those of
literals. It does take that no hint writes over the members that decide.
-/
namespace SchemaDoc

namespace Json

/-- Equality as schemas have it: numbers count by what they denote, objects in any order. -/
inductive Same : Json → Json → Prop
  | null : Same .null .null
  | bool (b : Bool) : Same (.bool b) (.bool b)
  | number {m n : Number} : m.value = n.value → Same (.number m) (.number n)
  | string (text : String) : Same (.string text) (.string text)
  | array {items others : List Json} : List.Forall₂ Same items others →
      Same (.array items) (.array others)
  | object {members others arranged : Members} : arranged.names = members.names →
      List.Forall₂ Same (members.map Prod.snd) (arranged.map Prod.snd) →
      arranged.Perm others → Same (.object members) (.object others)

/-- The value is of the type that a schema names and one of the values that it enumerates. Whatever
else a schema demands only admits fewer values. -/
structure Admits (schema value : Json) : Prop where
  type : ∀ name, schema.get? "type" = some (.string name) → value.typeName = name
  enum : ∀ values, schema.get? "enum" = some (.array values) → ∃ one ∈ values, value.Same one

/-- All values that a schema enumerates are those of literals. -/
def EnumeratesLiterals (schema : Json) : Prop :=
  ∀ values, schema.get? "enum" = some (.array values) →
    ∀ value ∈ values, ∃ literal : Literal, literal.toJson? = some value

end Json

/-- Values of literals that are the same as one value are equal. -/
theorem Literal.equal_of_same {literal literal' : Literal} {one two value : Json}
    (h : literal.toJson? = some one) (h' : literal'.toJson? = some two) (same : value.Same one)
    (same' : value.Same two) : one.equal two = true := by
  cases literal with
  | number x =>
    obtain ⟨d, -, rfl⟩ := Option.map_eq_some_iff.mp h
    cases same with
    | number first =>
      cases same' with
      | @number _ n second =>
        cases literal' with
        | number y =>
          obtain ⟨e, -, written⟩ := Option.map_eq_some_iff.mp h'
          cases written
          rw [Number.eq_of_value_ofDouble (first.symm.trans second)]
          exact Number.equal_self _
        | _ => cases h'
  | string text =>
    cases h
    cases same
    cases same'
    exact beq_self_eq_true text
  | boolean b =>
    cases h
    cases same
    cases same'
    exact beq_self_eq_true b
  | null =>
    cases h
    cases same
    cases same'
    rfl

namespace Alternatives

variable {documents : List Members} {document other : Members} {name : String}

/-- A property with a single value admits nothing else. -/
theorem same_of_admits {property value only : Json} (literals : property.EnumeratesLiterals)
    (h : onlyValue? property = some only) (admits : property.Admits value) :
    (∃ literal : Literal, literal.toJson? = some only) ∧ value.Same only := by
  unfold onlyValue? at h
  split at h
  · next type =>
    cases h
    refine ⟨⟨.null, rfl⟩, ?_⟩
    have typeName := admits.type "null" (Json.bind_string?_eq_some_iff.mp type)
    cases value <;> simp [Json.typeName] at typeName
    exact .null
  · split at h
    · next items =>
      cases h
      obtain ⟨values, found, hvalues⟩ := Option.bind_eq_some_iff.mp items
      cases values with
      | array entries =>
        cases hvalues
        obtain ⟨one, mem, same⟩ := admits.enum _ found
        obtain rfl := List.mem_singleton.mp mem
        exact ⟨literals _ found one mem, same⟩
      | _ => cases hvalues
    · cases h

/-- All properties of a document enumerate values of literals. -/
def PropertiesEnumerate (document : Members) : Prop :=
  ∀ properties, document.get? "properties" = some (.object properties) →
    ∀ member ∈ properties, member.2.EnumeratesLiterals

/-- The arms of a document are objects with a property by that name, and no value is admitted by
this property of two of them. -/
def TellsApart (name : String) (document : Members) : Prop :=
  ∃ arms : List Members, document.get? "oneOf" = some (.array (arms.map Json.object)) ∧
    (∀ arm ∈ arms, arm.get? "type" = some (.string "object") ∧
      ∃ property, property? arm name = some property) ∧
    arms.Pairwise fun arm later => ∀ value property property',
      property? arm name = some property → property? later name = some property' →
      property.Admits value → ¬ property'.Admits value

theorem isObjectDocument_iff :
    isObjectDocument document = true ↔ document.get? "type" = some (.string "object") := by
  rw [isObjectDocument, decide_eq_true_iff, Json.bind_string?_eq_some_iff]

/-- What the search finds tells documents apart whose properties enumerate values of literals. -/
theorem tellsApart_of_discriminator? {arms : List Members} (h : discriminator? arms = some name)
    (found : document.get? "oneOf" = some (.array (arms.map Json.object)))
    (literals : ∀ arm ∈ arms, PropertiesEnumerate arm) : TellsApart name document := by
  have discriminates := discriminates_of_discriminator? h
  have single : ∀ arm ∈ arms, (literalProperty? arm name).isSome = true :=
    (discriminates.only name).mpr rfl
  have enumerates : ∀ arm ∈ arms, ∀ property, property? arm name = some property →
      property.EnumeratesLiterals := by
    intro arm mem property hproperty
    obtain ⟨properties, hproperties, there⟩ := property?_eq_some_iff.mp hproperty
    exact literals arm mem properties hproperties _ (Members.mem_of_get? there)
  refine ⟨arms, found, fun arm mem => ⟨?_, ?_⟩, ?_⟩
  · exact isObjectDocument_iff.mp (discriminates.objects arm mem)
  · obtain ⟨properties, property, hproperties, there⟩ := exists_properties_of_isSome (single arm mem)
    exact ⟨property, property?_eq_some_iff.mpr ⟨properties, hproperties, there⟩⟩
  · have different := List.pairwise_filterMap.mp discriminates.different
    refine different.imp_of_mem ?_
    intro arm later harm hlater different value property property' hproperty hproperty' admits
      admits'
    obtain ⟨one, hone⟩ := Option.isSome_iff_exists.mp (single arm harm)
    obtain ⟨two, htwo⟩ := Option.isSome_iff_exists.mp (single later hlater)
    have unequal : one.equal two = false := different one hone two htwo
    rw [literalProperty?_eq, hproperty, Option.bind_some] at hone
    rw [literalProperty?_eq, hproperty', Option.bind_some] at htwo
    obtain ⟨⟨literal, hliteral⟩, same⟩ :=
      same_of_admits (enumerates arm harm property hproperty) hone admits
    obtain ⟨⟨literal', hliteral'⟩, same'⟩ :=
      same_of_admits (enumerates later hlater property' hproperty') htwo admits'
    rw [Literal.equal_of_same hliteral hliteral' same same'] at unequal
    cases unequal

/-! ## All documents keep the promise -/

/-- The members that decide what tells documents apart. -/
def decisive : List String := ["type", "properties", "enum", "oneOf", "discriminator"]

/-- The document enumerates values of literals, as do its properties, and where it names a
discriminator it tells its arms apart. -/
structure Telling (document : Members) : Prop where
  enum : (Json.object document).EnumeratesLiterals
  properties : PropertiesEnumerate document
  discriminator : ∀ told, document.get? "discriminator" = some told →
    ∃ name, told = .object [("propertyName", .string name)] ∧ TellsApart name document

namespace Telling

theorem of_get?_eq (h : Telling document)
    (same : ∀ name ∈ decisive, other.get? name = document.get? name) : Telling other where
  enum := by
    intro values found
    exact h.enum values ((same "enum" (by decide)).symm.trans found)
  properties := by
    intro properties found
    exact h.properties properties ((same "properties" (by decide)).symm.trans found)
  discriminator := by
    intro told found
    rw [same "discriminator" (by decide)] at found
    obtain ⟨name, htold, arms, harms, apart⟩ := h.discriminator told found
    exact ⟨name, htold, arms, (same "oneOf" (by decide)).trans harms, apart⟩

/-- A document without properties and discriminator. -/
theorem of_absent (enum : (Json.object document).EnumeratesLiterals)
    (properties : document.get? "properties" = none)
    (discriminator : document.get? "discriminator" = none) : Telling document where
  enum := enum
  properties := by
    intro members found
    rw [properties] at found
    cases found
  discriminator := by
    intro told found
    rw [discriminator] at found
    cases found

/-- A document in which nothing decides. -/
theorem of_plain (enum : document.get? "enum" = none)
    (properties : document.get? "properties" = none)
    (discriminator : document.get? "discriminator" = none) : Telling document := by
  apply of_absent _ properties discriminator
  intro values found
  rw [Json.get?, Json.members?, Option.bind_some, enum] at found
  cases found

theorem enumeration {scalar : String} {values : List Json}
    (literals : ∀ value ∈ values, ∃ literal : Literal, literal.toJson? = some value) :
    Telling (enumeration scalar values) := by
  unfold Alternatives.enumeration
  split
  · apply of_absent _ rfl rfl
    intro values found
    cases found
  · apply of_absent _ rfl rfl
    intro values found
    cases found
    exact literals

theorem listed (each : ∀ document ∈ documents, Telling document) : Telling (listed documents) := by
  rw [listed_eq]
  refine ⟨?_, ?_, ?_⟩
  · intro values found
    rw [Json.get?, Json.members?, Option.bind_some, absent_oneOf _ _ (by decide)] at found
    cases found
  · intro properties found
    rw [absent_oneOf _ _ (by decide)] at found
    cases found
  · intro told found
    rw [discriminator_oneOf] at found
    obtain ⟨name, htold, rfl⟩ := Option.map_eq_some_iff.mp found
    refine ⟨name, rfl, ?_⟩
    exact tellsApart_of_discriminator? htold rfl fun arm mem => (each arm mem).properties

theorem join (each : ∀ document ∈ documents, Telling document) : Telling (join documents) := by
  have kept : ∀ document ∈ distinct [] documents, Telling document :=
    fun document mem => each document ((distinct_sublist [] documents).subset mem)
  rcases join_eq documents with ⟨only, single, same⟩ | ⟨-, same⟩
  · rw [same]
    rw [single] at kept
    exact kept only (List.mem_singleton_self only)
  · rw [same]
    exact listed kept

end Telling

end Alternatives

/-- No hint of the schema, or of what it leads to, writes over the members that decide. -/
def Schema.HintsApart (bindings : Bindings) (schema : Schema) : Prop :=
  ∀ inner, Reachable bindings schema inner →
    ∀ base constraints, inner.shape = .refinement base constraints →
      ∀ constraint ∈ constraints, ∀ hint ∈ constraint.hints, hint.1 ∉ Alternatives.decisive

theorem Constraint.get?_applyAll {constraints : List Constraint}
    (hints : ∀ constraint ∈ constraints, ∀ hint ∈ constraint.hints,
      hint.1 ∉ Alternatives.decisive) (document : Members) {name : String}
    (h : name ∈ Alternatives.decisive) :
    (applyAll document constraints).get? name = document.get? name := by
  apply get?_applyAll_of_ne
  · exact fun constraint hconstraint hint hhint same =>
      hints constraint hconstraint hint hhint (same ▸ h)
  · have apart : ∀ name ∈ Alternatives.decisive,
        name ∉ ["minimum", "exclusiveMinimum", "maximum", "exclusiveMaximum"] := by decide
    exact apart name h

open Alternatives in
/-- Shapes pass it on from the documents of their parts. -/
theorem Shape.Makes.telling {part : Bool → Schema → Members → Prop}
    {target : Reference Schema → Members → Prop} {inField : Bool} {shape : Shape Schema}
    {document : Members} (made : shape.Makes part target inField document)
    (hints : ∀ base constraints, shape = .refinement base constraints →
      ∀ constraint ∈ constraints, ∀ hint ∈ constraint.hints, hint.1 ∉ decisive)
    (parts : ∀ inField' inner document, part inField' inner document → Telling document)
    (targets : ∀ reference document, target reference document → Telling document) :
    Telling document := by
  cases made with
  | primitive primitive => cases primitive <;> exact .of_plain rfl rfl rfl
  | literal hvalue => exact .enumeration (List.forall_mem_singleton.mpr ⟨_, hvalue⟩)
  | @struct fields index properties others hproperties hothers =>
    refine ⟨?_, ?_, ?_⟩
    · intro values found
      cases found
    · intro written found member mem
      cases found
      have there : member ∈ properties := (Members.mem_putAll mem).resolve_left List.not_mem_nil
      obtain ⟨field, -, document, hdocument, rfl⟩ := exists_of_mem_right hproperties there
      exact (parts _ _ _ hdocument).enum
    · intro told found
      cases found
  | @tuple elements rest documents others hdocuments hothers =>
    obtain ⟨items, least, most, further, same⟩ := Sequence.exists_laid elements documents others
    rw [same]
    apply Telling.of_plain (Sequence.absent_laid (by decide)) (Sequence.absent_laid (by decide))
    cases least <;> cases most <;> cases further <;> rfl
  | enumeration found =>
    obtain ⟨scalar, values, rfl, literals⟩ := exists_values_of_literalEnum found
    apply Telling.enumeration
    intro value mem
    obtain ⟨literal, -, hvalue⟩ := literals value mem
    exact ⟨literal, hvalue⟩
  | union hdocuments =>
    apply Telling.join
    intro document mem
    obtain ⟨member, -, hdocument⟩ := exists_of_mem_right hdocuments mem
    exact parts _ _ _ hdocument
  | refinement constraints hbase =>
    apply (parts _ _ _ hbase).of_get?_eq
    intro name mem
    exact Constraint.get?_applyAll (hints _ _ rfl) _ mem
  | recursive htarget => exact targets _ _ htarget
  | hidden => exact .of_plain rfl rfl rfl

namespace Projection

/-- Every document keeps the promise. -/
theorem telling_of_node {bindings : Bindings} {cap remaining : Nat} {inField : Bool}
    {trail : Trail} {schema : Schema} {document : Members} (hints : schema.HintsApart bindings)
    (h : node (follow bindings cap remaining) inField trail schema = .ok document) :
    Alternatives.Telling document := by
  apply holds_of_node (P := fun _ _ document => Alternatives.Telling document) _ .refl h
  intro inner inField document reached made
  have told : Alternatives.Telling document := by
    apply made.telling (hints inner reached) (fun _ _ _ h => h)
    rintro reference document (rfl | ⟨target, -, h⟩)
    · exact .of_plain rfl rfl rfl
    · exact h
  apply told.of_get?_eq
  intro name mem
  apply Annotations.get?_overlay
  have apart : ∀ name ∈ Alternatives.decisive, name ∉ ["title", "description", "examples"] := by
    decide
  exact apart name mem

end Projection

end SchemaDoc
