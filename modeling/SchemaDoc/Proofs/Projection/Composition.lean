import SchemaDoc.Proofs.Projection.CoherentDocuments
import SchemaDoc.Proofs.Projection.Discriminators
import SchemaDoc.Proofs.Projection.Relocation

/-!
# What nodes with parts are composed of

A tuple or a struct has a document exactly if its parts have, and it is put together from theirs. No
part is told by its place. In the document of a struct all fields are found again: their documents
in the order of the fields, and the names of those that must be there.
-/
namespace SchemaDoc

namespace Projection

variable {bindings : Bindings} {cap remaining : Nat} {inField : Bool} {trail : Trail}

theorem optional_eq_ok_iff {schema? : Option Schema} {step : LocationStep}
    {others : Option Members} :
    optional (follow bindings cap remaining) (trail.enter step) schema? = .ok others ↔
      Option.Rel (fun inner document =>
        node (follow bindings cap remaining) false trail inner = .ok document) schema? others := by
  rw [optional_eq_mapM]
  constructor
  · intro h
    exact optionRel_imp (fun _ _ => (node_enter_eq_ok_iff step).mp) (rel_of_optionMapM_eq_ok h)
  · intro h
    exact optionMapM_eq_ok_of_rel
      (optionRel_imp (fun _ _ => (node_enter_eq_ok_iff step).mpr) h)

/-! ## Tuples -/

section

variable {elements : List (Element Schema)} {rest : Option Schema}

theorem elementsOf_eq_ok_iff {documents : List Members} :
    elementsOf (follow bindings cap remaining) trail 0 elements = .ok documents ↔
      List.Forall₂ (fun element document =>
        node (follow bindings cap remaining) false trail element.node = .ok document)
        elements documents := by
  rw [elementsOf_eq_mapM]
  constructor
  · intro h
    apply forall₂_of_zipIdx (i := 0)
    exact (forall₂_of_mapM_eq_ok h).imp fun _ _ => (node_enter_eq_ok_iff _).mp
  · intro h
    apply mapM_eq_ok_of_forall₂
    exact (forall₂_zipIdx h.flip 0).flip.imp fun _ _ => (node_enter_eq_ok_iff _).mpr

/-- A tuple is made of the documents of its elements and its rest, wherever these stand in it. -/
theorem node_tuple_eq_ok_iff (identity : Identity) (notes : Annotations) {document : Members} :
    node (follow bindings cap remaining) inField trail
        (.node identity (.tuple elements rest) notes) = .ok document ↔
      ∃ documents others, List.Forall₂ (fun element document =>
          node (follow bindings cap remaining) false (trail.visit identity) element.node =
            .ok document) elements documents ∧
        Option.Rel (fun inner document =>
          node (follow bindings cap remaining) false (trail.visit identity) inner =
            .ok document) rest others ∧
        document = notes.overlay (Sequence.document elements documents others) := by
  constructor
  · intro h
    obtain ⟨made, hmade, h⟩ := bind_eq_ok.mp h
    cases h
    obtain ⟨others, hothers, hmade⟩ := bind_eq_ok.mp hmade
    obtain ⟨documents, hdocuments, hmade⟩ := bind_eq_ok.mp hmade
    cases hmade
    exact ⟨documents, others, elementsOf_eq_ok_iff.mp hdocuments,
      optional_eq_ok_iff.mp hothers, rfl⟩
  · rintro ⟨documents, others, hdocuments, hothers, rfl⟩
    apply bind_eq_ok.mpr
    refine ⟨Sequence.document elements documents others, ?_, rfl⟩
    apply bind_eq_ok.mpr
    refine ⟨others, optional_eq_ok_iff.mpr hothers, ?_⟩
    exact bind_eq_ok.mpr ⟨documents, elementsOf_eq_ok_iff.mpr hdocuments, rfl⟩

end

/-! ## Structs -/

section

variable {fields : List (Field Schema)} {index : Option Schema}

theorem fieldsOf_eq_ok_iff {properties : Members} :
    fieldsOf (follow bindings cap remaining) trail fields = .ok properties ↔
      List.Forall₂ (fun field property => ∃ document,
        node (follow bindings cap remaining) true trail field.node = .ok document ∧
          property = (field.name, Json.object document)) fields properties := by
  have each : ∀ (field : Field Schema) (property : String × Json),
      (do return (field.name, Json.object (← node (follow bindings cap remaining) true
        (trail.enter (.property field.name)) field.node))) = Except.ok property ↔
      ∃ document, node (follow bindings cap remaining) true trail field.node = .ok document ∧
        property = (field.name, Json.object document) := by
    intro field property
    rw [bind_eq_ok]
    constructor
    · rintro ⟨document, h, made⟩
      exact ⟨document, (node_enter_eq_ok_iff _).mp h, (Except.ok.inj made).symm⟩
    · rintro ⟨document, h, rfl⟩
      exact ⟨document, (node_enter_eq_ok_iff _).mpr h, rfl⟩
  rw [fieldsOf_eq_mapM]
  constructor
  · intro h
    exact (forall₂_of_mapM_eq_ok h).imp fun field property => (each field property).mp
  · intro h
    exact mapM_eq_ok_of_forall₂ (h.imp fun field property => (each field property).mpr)

/-- A struct is made of the documents of its fields and of its other members. -/
theorem node_struct_eq_ok_iff (identity : Identity) (notes : Annotations) {document : Members} :
    node (follow bindings cap remaining) inField trail
        (.node identity (.struct fields index) notes) = .ok document ↔
      ∃ properties others, List.Forall₂ (fun field property => ∃ document,
          node (follow bindings cap remaining) true (trail.visit identity) field.node =
            .ok document ∧ property = (field.name, Json.object document)) fields properties ∧
        Option.Rel (fun inner document =>
          node (follow bindings cap remaining) false (trail.visit identity) inner =
            .ok document) index others ∧
        document = notes.overlay (ofStruct fields properties others) := by
  constructor
  · intro h
    obtain ⟨made, hmade, h⟩ := bind_eq_ok.mp h
    cases h
    obtain ⟨properties, hproperties, hmade⟩ := bind_eq_ok.mp hmade
    obtain ⟨others, hothers, hmade⟩ := bind_eq_ok.mp hmade
    cases hmade
    exact ⟨properties, others, fieldsOf_eq_ok_iff.mp hproperties,
      optional_eq_ok_iff.mp hothers, rfl⟩
  · rintro ⟨properties, others, hproperties, hothers, rfl⟩
    apply bind_eq_ok.mpr
    refine ⟨ofStruct fields properties others, ?_, rfl⟩
    apply bind_eq_ok.mpr
    refine ⟨properties, fieldsOf_eq_ok_iff.mpr hproperties, ?_⟩
    exact bind_eq_ok.mpr ⟨others, optional_eq_ok_iff.mpr hothers, rfl⟩

/-- A struct has a document exactly if its fields and its other members have one. -/
theorem exists_node_struct_iff (identity : Identity) (notes : Annotations) :
    (∃ document, node (follow bindings cap remaining) inField trail
        (.node identity (.struct fields index) notes) = .ok document) ↔
      (∀ field ∈ fields, ∃ property, node (follow bindings cap remaining) true
        (trail.visit identity) field.node = .ok property) ∧
      ∀ inner, index = some inner → ∃ others, node (follow bindings cap remaining) false
        (trail.visit identity) inner = .ok others := by
  constructor
  · rintro ⟨document, h⟩
    obtain ⟨properties, others, hproperties, hothers, -⟩ :=
      (node_struct_eq_ok_iff identity notes).mp h
    constructor
    · intro field mem
      obtain ⟨_, -, property, hproperty, -⟩ := exists_of_mem_right hproperties.flip mem
      exact ⟨property, hproperty⟩
    · intro inner hindex
      obtain ⟨further, -, hfurther⟩ := exists_of_optionRel_left hothers hindex
      exact ⟨further, hfurther⟩
  · rintro ⟨hfields, hindex⟩
    have made : ∀ field ∈ fields, ∃ property : String × Json, ∃ document,
        node (follow bindings cap remaining) true (trail.visit identity) field.node =
          .ok document ∧ property = (field.name, Json.object document) := by
      intro field mem
      obtain ⟨document, hdocument⟩ := hfields field mem
      exact ⟨_, document, hdocument, rfl⟩
    obtain ⟨properties, hproperties⟩ := exists_forall₂ made
    obtain ⟨others, hothers⟩ := exists_optionRel hindex
    exact ⟨_, (node_struct_eq_ok_iff identity notes).mpr
      ⟨properties, others, hproperties, hothers, rfl⟩⟩

/-- The names of the fields that must be there, as the document of a struct has them. -/
theorem get?_required_of_node {identity : Identity} {notes : Annotations} {document : Members}
    (h : node (follow bindings cap remaining) inField trail
      (.node identity (.struct fields index) notes) = .ok document) :
    document.get? "required" = some (.array
      (((fields.filter fun field => !field.optional).map Field.name).map Json.string)) := by
  obtain ⟨properties, others, -, -, rfl⟩ := (node_struct_eq_ok_iff identity notes).mp h
  rw [notes.get?_overlay _ (by decide), List.map_map]
  rfl

/-- The properties of the document of a struct are those of its fields. -/
theorem property?_ofStruct {fields : List (Field Schema)} {properties : Members}
    (nodup : properties.names.Nodup) (others : Option Members) (notes : Annotations)
    (name : String) :
    Alternatives.property? (notes.overlay (ofStruct fields properties others)) name = properties.get? name := by
  have written : (Json.object (notes.overlay (ofStruct fields properties others))).get?
      "properties" = some (.object properties) := by
    have same := notes.get?_overlay (ofStruct fields properties others)
      (by decide : "properties" ∉ ["title", "description", "examples"])
    rw [Json.get?, Json.members?, Option.bind_some, same, ofStruct, Members.ofList_eq_self nodup]
    rfl
  rw [Alternatives.property?, written]
  rfl

/-- The document tells of all fields: their documents in order, and which of them must be there. -/
structure FieldsShown (fields : List (Field Schema)) (made : Field Schema → Members → Prop)
    (document : Members) : Prop where
  order : ∃ properties : Members, document.get? "properties" = some (.object properties) ∧
    properties.names = fields.map Field.name
  properties : ∀ field ∈ fields, ∃ property, made field property ∧
    Alternatives.property? document field.name = some (.object property)
  required : ∃ names : List String,
    document.get? "required" = some (.array (names.map Json.string)) ∧
    names.Sublist (fields.map Field.name) ∧
    ∀ field ∈ fields, field.name ∈ names ↔ field.optional = false

/-- Which fields a document tells of is decided by its properties and by those that must be there. -/
theorem FieldsShown.of_same {made : Field Schema → Members → Prop} {document other : Members}
    (shown : FieldsShown fields made document)
    (same : ∀ name ∈ ["properties", "required"], other.get? name = document.get? name) :
    FieldsShown fields made other := by
  have properties : other.get? "properties" = document.get? "properties" := same _ (by simp)
  have required : other.get? "required" = document.get? "required" := same _ (by simp)
  have each : Alternatives.property? other = Alternatives.property? document := by
    funext name
    simp only [Alternatives.property?, Json.get?, Json.members?, Option.bind_some, properties]
  constructor
  · rw [properties]
    exact shown.order
  · rw [each]
    exact shown.properties
  · rw [required]
    exact shown.required

/-- Among fields with distinct names, the names of those with a property tell them. -/
theorem mem_names_filter_iff (nodup : (fields.map Field.name).Nodup) {field : Field Schema}
    (mem : field ∈ fields) (p : Field Schema → Bool) :
    field.name ∈ (fields.filter p).map Field.name ↔ p field = true := by
  constructor
  · intro named
    obtain ⟨other, hother, same⟩ := List.mem_map.mp named
    obtain ⟨among, holds⟩ := List.mem_filter.mp hother
    have equal : other = field := List.inj_on_of_nodup_map nodup among mem same
    exact equal ▸ holds
  · intro holds
    exact List.mem_map_of_mem (List.mem_filter.mpr ⟨mem, holds⟩)

/-- The document of a struct tells of all its fields. -/
theorem fieldsShown_of_node {identity : Identity} {notes : Annotations} {document : Members}
    (nodup : (fields.map Field.name).Nodup)
    (h : node (follow bindings cap remaining) inField trail
      (.node identity (.struct fields index) notes) = .ok document) :
    FieldsShown fields (fun field property =>
      node (follow bindings cap remaining) true
        ((trail.visit identity).enter (.property field.name)) field.node = .ok property)
      document := by
  obtain ⟨properties, others, hproperties, -, same⟩ := (node_struct_eq_ok_iff identity notes).mp h
  have names : Members.names properties = fields.map Field.name :=
    names_of_fields (fun inner document =>
      node (follow bindings cap remaining) true (trail.visit identity) inner = .ok document)
      hproperties
  have distinct : (Members.names properties).Nodup := names ▸ nodup
  constructor
  · refine ⟨properties, ?_, names⟩
    rw [same, notes.get?_overlay _ (by decide), ofStruct, Members.ofList_eq_self distinct]
    rfl
  · intro field mem
    obtain ⟨property, hproperty, document, hdocument, rfl⟩ :=
      exists_of_mem_right hproperties.flip mem
    refine ⟨document, (node_enter_eq_ok_iff _).mpr hdocument, ?_⟩
    rw [same, property?_ofStruct distinct]
    exact Members.get?_of_mem distinct hproperty
  · refine ⟨(fields.filter fun field => !field.optional).map Field.name,
      get?_required_of_node h, List.filter_sublist.map Field.name, fun field mem => ?_⟩
    rw [mem_names_filter_iff nodup mem]
    simp

end

end Projection

end SchemaDoc
