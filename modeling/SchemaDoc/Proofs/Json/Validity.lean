import SchemaDoc.Proofs.Json.Alike
import SchemaDoc.Proofs.Json.Members
import SchemaDoc.Projection.Basic

/-!
# Values that a schema document accepts

A document is read as a schema keyword by keyword. Of the keywords only those are read that stand
in documents of plain structs and lists; a document with any other one accepts nothing, so that no
demand is passed over. For structs and lists it is then told what their documents accept.
-/
namespace SchemaDoc

namespace Json

/-- The names for which a schema has a property. -/
def propertyNames (schema : Members) : List String :=
  match schema.get? "properties" with
  | some (.object properties) => Members.names properties
  | _ => []

mutual

/-- The value meets all demands of a schema. The schema `false` has no rule. -/
inductive Accepts : Json → Json → Prop
  | all (value : Json) : Accepts (.bool true) value
  | object {schema : Members} {value : Json} :
      (∀ keyword ∈ schema, Obeys schema keyword value) → Accepts (.object schema) value

/-- The value meets the demand of one keyword of a schema. All keywords but `type` speak of objects
or of arrays only. -/
inductive Obeys : Members → String × Json → Json → Prop
  | type {schema : Members} {name : String} {value : Json} :
      value.typeName = name → Obeys schema ("type", .string name) value
  | properties {schema properties : Members} {value : Json} :
      (∀ members, value = .object members → ∀ member ∈ members, ∀ property ∈ properties,
        property.1 = member.1 → Accepts property.2 member.2) →
      Obeys schema ("properties", .object properties) value
  | required {schema : Members} {names : List Json} {value : Json} :
      (∀ members, value = .object members → ∀ name, Json.string name ∈ names →
        name ∈ Members.names members) →
      Obeys schema ("required", .array names) value
  | additionalProperties {schema : Members} {others value : Json} :
      (∀ members, value = .object members → ∀ member ∈ members,
        member.1 ∉ propertyNames schema → Accepts others member.2) →
      Obeys schema ("additionalProperties", others) value
  | items {schema : Members} {each value : Json} :
      (∀ items, value = .array items → ∀ item ∈ items, Accepts each item) →
      Obeys schema ("items", each) value

end

variable {schema : Members} {value : Json}

theorem accepts_object_iff :
    Accepts (.object schema) value ↔ ∀ keyword ∈ schema, Obeys schema keyword value := by
  constructor
  · intro accepts
    cases accepts with
    | object obeys => exact obeys
  · exact .object

theorem accepts_empty (value : Json) : Accepts (.object []) value :=
  .object (List.forall_mem_nil _)

theorem not_accepts_false (value : Json) : ¬ Accepts (.bool false) value := nofun

/-! ## Keywords -/

theorem obeys_type_iff {name : String} :
    Obeys schema ("type", .string name) value ↔ value.typeName = name := by
  constructor
  · intro obeys
    generalize hkeyword : ("type", Json.string name) = keyword at obeys
    cases obeys <;> simp_all
  · exact .type

theorem obeys_properties_iff {properties : Members} :
    Obeys schema ("properties", .object properties) value ↔
      ∀ members, value = .object members → ∀ member ∈ members, ∀ property ∈ properties,
        property.1 = member.1 → Accepts property.2 member.2 := by
  constructor
  · intro obeys
    generalize hkeyword : ("properties", Json.object properties) = keyword at obeys
    cases obeys with
    | properties h =>
      cases hkeyword
      exact h
    | _ => simp at hkeyword
  · exact .properties

theorem obeys_required_iff {names : List Json} :
    Obeys schema ("required", .array names) value ↔
      ∀ members, value = .object members → ∀ name, Json.string name ∈ names →
        name ∈ Members.names members := by
  constructor
  · intro obeys
    generalize hkeyword : ("required", Json.array names) = keyword at obeys
    cases obeys with
    | required h =>
      cases hkeyword
      exact h
    | _ => simp at hkeyword
  · exact .required

theorem obeys_additionalProperties_iff {others : Json} :
    Obeys schema ("additionalProperties", others) value ↔
      ∀ members, value = .object members → ∀ member ∈ members,
        member.1 ∉ propertyNames schema → Accepts others member.2 := by
  constructor
  · intro obeys
    generalize hkeyword : ("additionalProperties", others) = keyword at obeys
    cases obeys with
    | additionalProperties h =>
      cases hkeyword
      exact h
    | _ => simp at hkeyword
  · exact .additionalProperties

theorem obeys_items_iff {each : Json} :
    Obeys schema ("items", each) value ↔
      ∀ items, value = .array items → ∀ item ∈ items, Accepts each item := by
  constructor
  · intro obeys
    generalize hkeyword : ("items", each) = keyword at obeys
    cases obeys with
    | items h =>
      cases hkeyword
      exact h
    | _ => simp at hkeyword
  · exact .items

/-! ## Documents -/

theorem accepts_type_iff {name : String} :
    Accepts (.object [("type", .string name)]) value ↔ value.typeName = name := by
  rw [accepts_object_iff, List.forall_mem_singleton, obeys_type_iff]

/-- The document of a list accepts the arrays of which it accepts all items. -/
theorem accepts_list_iff {each : Json} {items : List Json} :
    Accepts (.object [("type", .string "array"), ("items", each)]) (.array items) ↔
      ∀ item ∈ items, Accepts each item := by
  rw [accepts_object_iff, List.forall_mem_cons, List.forall_mem_singleton, obeys_type_iff,
    obeys_items_iff]
  simp [typeName]

end Json

namespace Projection

variable {σ : Type} {fields : List (Field σ)} {properties members : Members}

theorem mem_required {name : String} :
    Json.string name ∈ (fields.filter fun field => !field.optional).map
      (fun field => Json.string field.name) ↔
      ∃ field ∈ fields, field.optional = false ∧ field.name = name := by
  simp [and_assoc]

/-- The document of a struct that has no other members accepts an object exactly if the fields that
must be there are, and each member is accepted by the document of a field of its name. -/
theorem accepts_ofStruct_iff (nodup : properties.names.Nodup) :
    Json.Accepts (.object (ofStruct fields properties none)) (.object members) ↔
      (∀ field ∈ fields, field.optional = false → field.name ∈ members.names) ∧
      ∀ member ∈ members, ∃ document, (member.1, document) ∈ properties ∧
        Json.Accepts document member.2 := by
  have document : ofStruct fields properties none = [("type", .string "object"),
      ("properties", .object properties),
      ("required", .array ((fields.filter fun field => !field.optional).map
        fun field => .string field.name)), ("additionalProperties", .bool false)] := by
    rw [ofStruct, Members.ofList_eq_self nodup]
    rfl
  have listed : Json.propertyNames (ofStruct fields properties none) = properties.names := by
    rw [document]
    simp [Json.propertyNames, Members.get?, List.lookup_cons]
  rw [document] at listed
  rw [Json.accepts_object_iff, document]
  simp only [List.forall_mem_cons, List.not_mem_nil, Json.obeys_type_iff,
    Json.obeys_properties_iff, Json.obeys_required_iff, Json.obeys_additionalProperties_iff, listed,
    mem_required, Json.object.injEq, Json.not_accepts_false, imp_false, not_not, forall_eq',
    false_imp_iff, implies_true, and_true]
  constructor
  · rintro ⟨-, hproperties, hrequired, hlisted⟩
    constructor
    · intro field mem required
      exact hrequired field.name ⟨field, mem, required, rfl⟩
    · intro member mem
      obtain ⟨property, hproperty, hname⟩ := List.mem_map.mp (hlisted member mem)
      exact ⟨property.2, hname ▸ hproperty, hproperties member mem property hproperty hname⟩
  · rintro ⟨hrequired, hmembers⟩
    refine ⟨rfl, ?_, ?_, ?_⟩
    · intro member mem property hproperty hname
      obtain ⟨document, hdocument, accepts⟩ := hmembers member mem
      have same := Members.get?_of_mem nodup hdocument
      rw [← hname, Members.get?_of_mem nodup hproperty] at same
      cases same
      exact accepts
    · rintro name ⟨field, mem, required, rfl⟩
      exact hrequired field mem required
    · intro member mem
      obtain ⟨document, hdocument, -⟩ := hmembers member mem
      exact List.mem_map.mpr ⟨_, hdocument, rfl⟩

end Projection

end SchemaDoc
