import SchemaDoc.Proofs.Json.Pointer
import SchemaDoc.Proofs.Projection.Assembly
import SchemaDoc.Proofs.Projection.Documents
import SchemaDoc.Proofs.Projection.Enumerations
import SchemaDoc.Proofs.Schema.Numbers

/-!
# Documents of bare schemas

A bare schema without infinite and undefined numbers has a document, which does not depend on where
the schema is met. The arrays in it list only the numbers that the schema has as literals.
-/
namespace SchemaDoc

/-- However it is met, the schema is projected to the document. -/
def Schema.Yields (schema : Schema) (inField : Bool) (document : Members) : Prop :=
  ∀ follow trail, Projection.node follow inField trail schema = .ok document

namespace Schema

variable {identity : Identity} {inField : Bool} {document : Members}

theorem yields_node {shape : Shape Schema}
    (h : ∀ follow trail, Projection.shapeOf follow inField trail shape = .ok document) :
    (Schema.node identity shape .none).Yields inField document := by
  intro follow trail
  rw [Projection.node, h]
  rfl

theorem yields_literal {literal : Literal} {value : Json} (h : literal.toJson? = some value) :
    (Schema.node identity (.literal literal) .none).Yields inField
      (Alternatives.enumeration literal.scalarType [value]) :=
  yields_node fun _ _ => by rw [Projection.shapeOf, Projection.ofLiteral, h]

/-- The property of a field: its name, with the document of its schema. -/
def PropertyOf (field : Field Schema) (property : String × Json) : Prop :=
  ∃ document, field.node.Yields true document ∧ property = (field.name, Json.object document)

theorem names_of_properties {fields : List (Field Schema)} {properties : Members}
    (h : List.Forall₂ PropertyOf fields properties) : properties.names = fields.map Field.name :=
  names_of_fields (fun schema => schema.Yields true) h

theorem yields_struct {fields : List (Field Schema)} {index : Option Schema} {properties : Members}
    {others : Option Members}
    (hproperties : List.Forall₂ PropertyOf fields properties)
    (hothers : Option.Rel (fun inner document => inner.Yields false document) index others) :
    (Schema.node identity (.struct fields index) .none).Yields inField
      (Projection.ofStruct fields properties others) := by
  refine yields_node fun follow trail => ?_
  rw [Projection.shapeOf, Projection.fieldsOf_eq_mapM, Projection.optional_eq_mapM,
    mapM_eq_ok_of_forall₂ (hproperties.imp ?_), optionMapM_eq_ok_of_rel (optionRel_imp ?_ hothers)]
  · rfl
  · exact fun inner document h => h follow _
  · rintro field property ⟨document, h, rfl⟩
    rw [h]
    rfl

theorem yields_tuple {elements : List (Element Schema)} {rest : Option Schema}
    {documents : List Members} {others : Option Members}
    (hdocuments : List.Forall₂ (fun element document => element.node.Yields false document)
      elements documents)
    (hothers : Option.Rel (fun inner document => inner.Yields false document) rest others) :
    (Schema.node identity (.tuple elements rest) .none).Yields inField
      (Sequence.document elements documents others) := by
  refine yields_node fun follow trail => ?_
  have placed := (forall₂_zipIdx hdocuments.flip 0).flip
  rw [Projection.shapeOf, Projection.elementsOf_eq_mapM, Projection.optional_eq_mapM,
    optionMapM_eq_ok_of_rel (optionRel_imp ?_ hothers), mapM_eq_ok_of_forall₂ (placed.imp ?_)]
  · rfl
  · exact fun element document h => h follow _
  · exact fun inner document h => h follow _

theorem yields_enumeration {members : List Schema}
    (h : ∀ location, Alternatives.literalEnum location
      ((members.filter (Projection.counts inField members)).map Schema.literal?) =
        .ok (some document)) :
    (Schema.node identity (.union members) .none).Yields inField document := by
  refine yields_node fun follow trail => ?_
  rw [Projection.shapeOf, Projection.ofUnion, h]
  rfl

theorem yields_union {members : List Schema} {documents : List Members}
    (notEnum : ∀ location, Alternatives.literalEnum location
      ((members.filter (Projection.counts inField members)).map Schema.literal?) = .ok none)
    (hdocuments : List.Forall₂ (fun member document => member.Yields false document)
      (members.filter (Projection.counts inField members)) documents) :
    (Schema.node identity (.union members) .none).Yields inField
      (Alternatives.join documents) := by
  refine yields_node fun follow trail => ?_
  have placed := (forall₂_zipIdx hdocuments.flip 0).flip
  rw [Projection.shapeOf, Projection.ofUnion_of_no_literalEnum (notEnum _),
    Projection.membersOf_eq_mapM, mapM_eq_ok_of_forall₂ (placed.imp ?_)]
  · rfl
  · exact fun member document h => h follow _

end Schema

/-! ## The numbers that documents list -/

section

variable {text : List Char} {documents : List Members}

open Json (Lists)

theorem Projection.lists_ofStruct_iff {fields : List (Field Schema)} {properties : Members}
    {others : Option Members} (nodup : properties.names.Nodup) :
    Lists text (.object (ofStruct fields properties others)) ↔
      (∃ property ∈ properties, Lists text property.2) ∨
        ∃ document, others = some document ∧ Lists text (.object document) := by
  simp only [ofStruct, Members.ofList_eq_self nodup]
  cases others <;> simp

theorem Sequence.lists_laid_iff {least most : Option Nat} {rest : Option Members} :
    Lists text (.object (laid documents least most rest)) ↔
      (∃ document ∈ documents, Lists text (.object document)) ∨
        ∃ document, rest = some document ∧ Lists text (.object document) := by
  have items : Lists text (itemsOf documents) ↔
      ∃ document ∈ documents, Lists text (.object document) := by
    rcases itemsOf_cases documents with ⟨only, rfl, same⟩ | ⟨-, same⟩
    · rw [same]
      simp
    · rw [same, Json.lists_objects_iff]
  rw [← items]
  cases least <;> cases most <;> cases rest <;> simp [laid, Members.ofOption]

theorem Alternatives.lists_listed_iff :
    Lists text (.object (listed documents)) ↔
      ∃ document ∈ documents, Lists text (.object document) := by
  rw [← Json.lists_objects_iff]
  unfold listed
  split <;> simp

theorem Literal.not_lists_of_toJson? {literal : Literal} {value : Json}
    (h : literal.toJson? = some value) : ¬ Lists text value := by
  cases literal with
  | number x =>
    obtain ⟨_, -, rfl⟩ := Option.map_eq_some_iff.mp h
    exact Json.not_lists_number _
  | string _ =>
    cases h
    exact Json.not_lists_string _
  | boolean b =>
    cases h
    exact Json.not_lists_bool b
  | null =>
    cases h
    exact nofun

theorem Alternatives.lists_enumeration_iff {scalar : String} {values : List Json}
    (scalars : ∀ value ∈ values, ∃ literal : Literal, literal.toJson? = some value) :
    Lists text (.object (enumeration scalar values)) ↔
      scalar ≠ "null" ∧ ∃ n, Json.number n ∈ values ∧ n.chars = text := by
  have array : Lists text (.array values) ↔ ∃ n, Json.number n ∈ values ∧ n.chars = text := by
    constructor
    · intro h
      cases h with
      | number mem hchars => exact ⟨_, mem, hchars⟩
      | item mem h =>
        obtain ⟨literal, hvalue⟩ := scalars _ mem
        exact absurd h (Literal.not_lists_of_toJson? hvalue)
    · rintro ⟨n, mem, hchars⟩
      exact .number mem hchars
  unfold enumeration
  split <;> simp_all

/-! ## Members named by places -/

theorem Sequence.get?_zero_laid {least most : Option Nat} {rest : Option Members} :
    (laid documents least most rest).get? "0" = none := by
  cases least <;> cases most <;> cases rest <;> rfl

theorem Sequence.get?_zero_document {σ : Type} {elements : List (Element σ)}
    {rest : Option Members} : (document elements documents rest).get? "0" = none := by
  rcases document_cases elements documents rest with ⟨_, -, -, same⟩ | ⟨-, same⟩ |
    ⟨_, -, -, -, same⟩ | ⟨-, same⟩ <;> exact same ▸ get?_zero_laid

theorem Alternatives.get?_zero_listed : (listed documents).get? "0" = none := by
  unfold listed
  split <;> rfl

theorem Alternatives.get?_zero_join (nonempty : documents ≠ [])
    (noPlace : ∀ document ∈ documents, document.get? "0" = none) :
    (join documents).get? "0" = none := by
  rcases join_cases nonempty with ⟨only, honly, same⟩ | ⟨-, same⟩
  · have mem : only ∈ distinct [] documents := honly ▸ List.mem_singleton_self only
    exact same ▸ noPlace only ((distinct_sublist [] documents).subset mem)
  · exact same ▸ get?_zero_listed

theorem Alternatives.get?_zero_enumeration (scalar : String) (values : List Json) :
    (enumeration scalar values).get? "0" = none := by
  unfold enumeration
  split <;> rfl

end

/-- The document lists no number written so, and has no member named by a place. -/
structure Members.Quiet (text : List Char) (document : Members) : Prop where
  notLists : ¬ (Json.object document).Lists text
  noPlace : document.get? "0" = none

section

variable {text : List Char} {documents : List Members}

theorem Projection.quiet_ofPrimitive (primitive : Primitive) :
    (ofPrimitive primitive).Quiet text := by
  cases primitive <;> exact ⟨by simp [ofPrimitive], rfl⟩

theorem Alternatives.quiet_enumeration {scalar : String} {values : List Json}
    (different : ∀ value ∈ values, ∃ literal : Literal, literal.toJson? = some value ∧
      ∀ n, value = .number n → n.chars ≠ text) : (enumeration scalar values).Quiet text := by
  refine ⟨?_, get?_zero_enumeration scalar values⟩
  rw [lists_enumeration_iff fun value mem => (different value mem).imp fun _ h => h.1]
  rintro ⟨-, n, mem, hchars⟩
  obtain ⟨_, -, h⟩ := different _ mem
  exact h n rfl hchars

theorem Projection.quiet_ofStruct {fields : List (Field Schema)} {properties : Members}
    {others : Option Members} (nodup : properties.names.Nodup)
    (hproperties : ∀ property ∈ properties, ¬ property.2.Lists text)
    (hothers : ∀ document, others = some document → document.Quiet text) :
    (ofStruct fields properties others).Quiet text := by
  refine ⟨?_, rfl⟩
  rw [lists_ofStruct_iff nodup]
  rintro (⟨property, mem, h⟩ | ⟨document, hdocument, h⟩)
  · exact hproperties property mem h
  · exact (hothers document hdocument).notLists h

theorem Sequence.quiet_laid {least most : Option Nat} {rest : Option Members}
    (hdocuments : ∀ document ∈ documents, document.Quiet text)
    (hrest : ∀ document, rest = some document → document.Quiet text) :
    (laid documents least most rest).Quiet text := by
  refine ⟨?_, get?_zero_laid⟩
  rw [lists_laid_iff]
  rintro (⟨document, mem, h⟩ | ⟨document, hdocument, h⟩)
  · exact (hdocuments document mem).notLists h
  · exact (hrest document hdocument).notLists h

theorem Sequence.quiet_document {σ : Type} {elements : List (Element σ)} {rest : Option Members}
    (hdocuments : ∀ document ∈ documents, document.Quiet text)
    (hrest : ∀ document, rest = some document → document.Quiet text) :
    (document elements documents rest).Quiet text := by
  rcases document_cases elements documents rest with ⟨others, -, rfl, same⟩ | ⟨-, same⟩ |
    ⟨others, -, rfl, -, same⟩ | ⟨rfl, same⟩
  · exact same ▸ quiet_laid (List.forall_mem_singleton.mpr (hrest others rfl)) nofun
  · exact same ▸ quiet_laid hdocuments nofun
  · exact same ▸ quiet_laid hdocuments hrest
  · exact same ▸ quiet_laid hdocuments nofun

theorem Alternatives.quiet_join (nonempty : documents ≠ [])
    (hdocuments : ∀ document ∈ documents, document.Quiet text) : (join documents).Quiet text := by
  refine ⟨?_, get?_zero_join nonempty fun document mem => (hdocuments document mem).noPlace⟩
  have kept : ∀ document ∈ distinct [] documents, ¬ (Json.object document).Lists text :=
    fun document mem => (hdocuments document ((distinct_sublist [] documents).subset mem)).notLists
  rcases join_cases nonempty with ⟨only, honly, same⟩ | ⟨-, same⟩
  · exact same ▸ kept only (honly ▸ List.mem_singleton_self only)
  · rw [same, lists_listed_iff]
    rintro ⟨document, mem, h⟩
    exact kept document mem h

end

/-- A bare schema whose numbers JSON can write, but writes otherwise than a given text. -/
structure Schema.Settled (text : List Char) (schema : Schema) : Prop where
  bare : schema.Bare
  numbers : ∀ x ∈ schema.numbers, ∃ d, x = .finite d ∧ (Number.ofDouble d).chars ≠ text

namespace Schema.Settled

variable {text : List Char} {identity : Identity} {shape : Shape Schema} {notes : Annotations}

theorem part (h : (Schema.node identity shape notes).Settled text) {inner : Schema}
    (part : shape.Part inner) : inner.Settled text := by
  obtain ⟨bare, numbers⟩ := h
  cases bare with
  | node _ parts =>
    refine ⟨parts inner part, fun x mem => numbers x ?_⟩
    rw [numbers_node]
    exact List.mem_append_right _ (List.mem_flatMap.mpr ⟨inner, Shape.mem_parts_iff.mpr part, mem⟩)

theorem number (h : (Schema.node identity shape notes).Settled text) {x : Binary64}
    (hx : shape.number? = some x) : ∃ d, x = .finite d ∧ (Number.ofDouble d).chars ≠ text := by
  refine h.numbers x ?_
  rw [numbers_node, hx]
  exact List.mem_append_left _ (List.mem_singleton_self x)

/-- The schema is a literal only with a JSON value, which is not written so. -/
theorem literal {schema : Schema} (h : schema.Settled text) {literal : Literal}
    (hliteral : schema.literal? = some literal) :
    ∃ value, literal.toJson? = some value ∧ ∀ n, value = .number n → n.chars ≠ text := by
  obtain ⟨identity, shape, notes⟩ := schema
  obtain rfl : shape = .literal literal := Projection.shape_eq_of_literal? hliteral
  cases literal with
  | number x =>
    obtain ⟨d, rfl, different⟩ := h.number rfl
    refine ⟨_, rfl, fun n same => ?_⟩
    cases same
    exact different
  | string value => exact ⟨_, rfl, fun n same => by cases same⟩
  | boolean value => exact ⟨_, rfl, fun n same => by cases same⟩
  | null => exact ⟨_, rfl, fun n same => by cases same⟩

end Schema.Settled

namespace Schema

/-! ## All settled schemas have documents -/

section

variable {text : List Char} {identity : Identity} {inField : Bool}

theorem exists_properties {fields : List (Field Schema)}
    (parts : ∀ field ∈ fields, ∃ document, field.node.Yields true document ∧ document.Quiet text) :
    ∃ properties, List.Forall₂ PropertyOf fields properties ∧
      ∀ property ∈ properties, ¬ property.2.Lists text := by
  have each : ∀ field ∈ fields, ∃ property : String × Json,
      PropertyOf field property ∧ ¬ property.2.Lists text := by
    intro field mem
    obtain ⟨document, hdocument, quiet⟩ := parts field mem
    exact ⟨_, ⟨document, hdocument, rfl⟩, quiet.notLists⟩
  obtain ⟨properties, hproperties⟩ := exists_forall₂ each
  refine ⟨properties, hproperties.imp fun _ _ h => h.1, fun property mem => ?_⟩
  obtain ⟨field, -, -, quiet⟩ := exists_of_mem_right hproperties mem
  exact quiet

theorem exists_documents {α : Type} {node : α → Schema} {xs : List α}
    (parts : ∀ x ∈ xs, ∃ document, (node x).Yields false document ∧ document.Quiet text) :
    ∃ documents, List.Forall₂ (fun x document => (node x).Yields false document) xs documents ∧
      ∀ document ∈ documents, document.Quiet text := by
  obtain ⟨documents, hdocuments⟩ := exists_forall₂ parts
  refine ⟨documents, hdocuments.imp fun _ _ h => h.1, fun document mem => ?_⟩
  obtain ⟨x, -, -, quiet⟩ := exists_of_mem_right hdocuments mem
  exact quiet

theorem exists_optional {schema? : Option Schema} (part : ∀ inner, schema? = some inner →
      ∃ document, inner.Yields false document ∧ document.Quiet text) :
    ∃ document?, Option.Rel (fun inner document => inner.Yields false document) schema? document? ∧
      ∀ document, document? = some document → document.Quiet text := by
  cases schema? with
  | none => exact ⟨none, .none, nofun⟩
  | some inner =>
    obtain ⟨document, hdocument, quiet⟩ := part inner rfl
    refine ⟨some document, .some hdocument, fun other same => ?_⟩
    exact Option.some.inj same ▸ quiet

theorem exists_yields_struct {fields : List (Field Schema)} {index : Option Schema}
    (nodup : (fields.map Field.name).Nodup)
    (parts : ∀ inner, Shape.Part (.struct fields index) inner → ∀ inField, ∃ document,
      inner.Yields inField document ∧ document.Quiet text) :
    ∃ document, (Schema.node identity (.struct fields index) .none).Yields inField document ∧
      document.Quiet text := by
  obtain ⟨properties, hproperties, quiet⟩ := exists_properties
    fun field mem => parts field.node (.field mem) true
  obtain ⟨others, hothers, quietOthers⟩ := exists_optional
    fun inner hinner => parts inner (.of_index hinner) false
  have names : (Members.names properties).Nodup := names_of_properties hproperties ▸ nodup
  exact ⟨_, yields_struct hproperties hothers, Projection.quiet_ofStruct names quiet quietOthers⟩

theorem exists_yields_tuple {elements : List (Element Schema)} {rest : Option Schema}
    (parts : ∀ inner, Shape.Part (.tuple elements rest) inner → ∀ inField, ∃ document,
      inner.Yields inField document ∧ document.Quiet text) :
    ∃ document, (Schema.node identity (.tuple elements rest) .none).Yields inField document ∧
      document.Quiet text := by
  obtain ⟨documents, hdocuments, quiet⟩ := exists_documents
    fun element mem => parts element.node (.element mem) false
  obtain ⟨others, hothers, quietOthers⟩ := exists_optional
    fun inner hinner => parts inner (.of_rest hinner) false
  exact ⟨_, yields_tuple hdocuments hothers, Sequence.quiet_document quiet quietOthers⟩

theorem exists_yields_union {members : List Schema} (nonempty : members ≠ [])
    (literals : ∀ member ∈ members, ∀ literal, member.literal? = some literal →
      ∃ value, literal.toJson? = some value ∧ ∀ n, value = .number n → n.chars ≠ text)
    (parts : ∀ inner, Shape.Part (.union members) inner → ∀ inField, ∃ document,
      inner.Yields inField document ∧ document.Quiet text) :
    ∃ document, (Schema.node identity (.union members) .none).Yields inField document ∧
      document.Quiet text := by
  have counted : ∀ member ∈ members.filter (Projection.counts inField members),
      member ∈ members := fun member mem => (List.mem_filter.mp mem).1
  have values : ∀ literal, some literal ∈
      (members.filter (Projection.counts inField members)).map Schema.literal? →
      ∃ value, literal.toJson? = some value ∧ ∀ n, value = .number n → n.chars ≠ text := by
    intro literal mem
    obtain ⟨member, hmember, hliteral⟩ := List.mem_map.mp mem
    exact literals member (counted member hmember) literal hliteral
  obtain ⟨found, hfound⟩ := Alternatives.literalEnum_ok fun literal mem =>
    (values literal mem).imp fun _ h => h.1
  cases found with
  | some document =>
    obtain ⟨scalar, listed, rfl, hlisted⟩ := Alternatives.exists_values_of_literalEnum (hfound [])
    refine ⟨_, yields_enumeration hfound, Alternatives.quiet_enumeration fun value mem => ?_⟩
    obtain ⟨literal, hliteral, hvalue⟩ := hlisted value mem
    obtain ⟨value', hvalue', different⟩ := values literal hliteral
    exact ⟨literal, hvalue, Option.some.inj (hvalue'.symm.trans hvalue) ▸ different⟩
  | none =>
    obtain ⟨documents, hdocuments, quiet⟩ := exists_documents
      fun member mem => parts member (.member (counted member mem)) false
    have some : documents ≠ [] := by
      rintro rfl
      exact Projection.filter_counts_ne_nil inField nonempty
        (List.forall₂_nil_right_iff.mp hdocuments)
    exact ⟨_, yields_union hfound hdocuments, Alternatives.quiet_join some quiet⟩

/-- A settled schema has a document, which does not list the text. -/
theorem Settled.exists_yields {schema : Schema} (h : schema.Settled text) (inField : Bool) :
    ∃ document, schema.Yields inField document ∧ document.Quiet text := by
  induction schema using Schema.induction_on_parts generalizing inField with
  | node identity shape notes ih =>
    have bare := h.bare
    cases bare with
    | node shapeBare _ =>
      have parts : ∀ inner, shape.Part inner → ∀ inField', ∃ document,
          inner.Yields inField' document ∧ document.Quiet text :=
        fun inner part inField' => ih inner part (h.part part) inField'
      cases shape with
      | primitive primitive =>
        exact ⟨_, yields_node fun _ _ => rfl, Projection.quiet_ofPrimitive primitive⟩
      | literal literal =>
        obtain ⟨value, hvalue, different⟩ := h.literal rfl
        exact ⟨_, yields_literal hvalue, Alternatives.quiet_enumeration
          (List.forall_mem_singleton.mpr ⟨literal, hvalue, different⟩)⟩
      | struct fields index => exact exists_yields_struct shapeBare parts
      | tuple elements rest => exact exists_yields_tuple parts
      | union members =>
        refine exists_yields_union shapeBare (fun member mem literal hliteral => ?_) parts
        exact (h.part (.member mem)).literal hliteral
      | refinement => exact shapeBare.elim
      | recursive => exact shapeBare.elim
      | hidden => exact ⟨[], yields_node fun _ _ => rfl, by simp, rfl⟩

end

/-! ## How unions with a number are searched -/

theorem literal?_of_number? {schema : Schema} {x : Binary64} (h : schema.shape.number? = some x) :
    schema.literal? = some (.number x) := by
  unfold Shape.number? at h
  split at h
  · next hshape =>
    rw [literal?, hshape, Option.some.inj h]
  · cases h

theorem scalarType_ne_of_number? {schema : Schema} (h : schema.shape.number? = none) :
    schema.literal?.map Literal.scalarType ≠ some "number" := by
  unfold literal?
  split
  · next literal hshape =>
    rw [hshape] at h
    cases literal with
    | number x => cases h
    | _ => simp [Literal.scalarType]
  · simp

/-- A member of another type than an earlier one keeps a union from being an enumeration. -/
theorem literalEnum_of_mixed {first last : List Schema} {hole : Schema}
    (writable : ∀ other ∈ first, ∀ literal, other.literal? = some literal →
      ∃ value, literal.toJson? = some value)
    (mixed : ∀ literal, hole.literal? = some literal → ∃ other ∈ first,
      other.literal?.map Literal.scalarType ≠ some literal.scalarType) (location : Location) :
    Alternatives.literalEnum location ((first ++ hole :: last).map literal?) = .ok none := by
  rw [List.map_append, List.map_cons]
  refine Alternatives.literalEnum_eq_none (fun literal mem => ?_) fun literal hliteral => ?_
  · obtain ⟨other, hother, same⟩ := List.mem_map.mp mem
    exact writable other hother literal same
  · obtain ⟨other, mem, different⟩ := mixed literal hliteral
    exact ⟨_, List.mem_map_of_mem mem, different⟩

section

variable {text : List Char} {inner : Schema} {before after : List Schema}

/-- The search for an enumeration ends before a member that is no literal, and before a number after
a member that is none. -/
theorem literalEnum_of_stops (settled : ∀ other ∈ before, other.Settled text)
    (literal : ∀ literal, inner.literal? = some literal →
      literal.scalarType = "number" ∧ ∃ other ∈ before, other.shape.number? = none)
    (location : Location) :
    Alternatives.literalEnum location ((before ++ inner :: after).map Schema.literal?) = .ok none := by
  refine literalEnum_of_mixed (fun other mem found hfound => ?_) (fun found hfound => ?_) location
  · exact ((settled other mem).literal hfound).imp fun _ h => h.1
  · obtain ⟨number, other, mem, stops⟩ := literal found hfound
    exact ⟨other, mem, number ▸ scalarType_ne_of_number? stops⟩

theorem scalarType_of_number {x : Binary64} (number : inner.shape = .literal (.number x))
    {literal : Literal} (h : inner.literal? = some literal) : literal.scalarType = "number" := by
  rw [literal?, number] at h
  cases h
  rfl

/-- The search gets past a number, but not past a later member that is none. -/
theorem literalEnum_of_later {d : Double} {hole : Schema}
    (settled : ∀ other ∈ before ++ after, other.Settled text)
    (number : inner.literal? = some (.number (.finite d))) (mem : hole ∈ after)
    (stops : hole.shape.number? = none) (location : Location) :
    Alternatives.literalEnum location ((before ++ inner :: after).map Schema.literal?) = .ok none := by
  obtain ⟨first, last, rfl⟩ := List.append_of_mem mem
  have split : before ++ inner :: (first ++ hole :: last) =
      (before ++ inner :: first) ++ hole :: last := by simp
  rw [split]
  refine literalEnum_of_mixed (fun other mem literal hliteral => ?_)
    (fun literal hliteral => ?_) location
  · rcases List.mem_cons.mp (List.perm_middle.mem_iff.mp mem) with rfl | mem
    · cases number.symm.trans hliteral
      exact ⟨_, rfl⟩
    · have among : other ∈ before ++ (first ++ hole :: last) := by
        rw [← List.append_assoc]
        exact List.mem_append_left _ mem
      exact ((settled other among).literal hliteral).imp fun _ h => h.1
  · refine ⟨inner, List.mem_append_right _ List.mem_cons_self, ?_⟩
    have different := scalarType_ne_of_number? stops
    rw [hliteral] at different
    rw [number]
    exact different.symm

/-- Numbers make an enumeration, and each of them is in it. -/
theorem literalEnum_of_numbers {d : Double} (number : inner.literal? = some (.number (.finite d)))
    (numbers : ∀ other ∈ before ++ after, ∃ e, other.literal? = some (.number (.finite e)))
    (several : before ++ after ≠ []) :
    ∃ found, (∀ location, Alternatives.literalEnum location
        ((before ++ inner :: after).map Schema.literal?) =
          .ok (some (Alternatives.enumeration "number" found))) ∧ .number (.ofDouble d) ∈ found := by
  have entries : ∀ entry ∈ (before ++ inner :: after).map literal?,
      ∃ e, entry = some (.number (.finite e)) := by
    intro entry mem
    obtain ⟨other, hother, rfl⟩ := List.mem_map.mp mem
    rcases List.mem_cons.mp (List.perm_middle.mem_iff.mp hother) with rfl | hother
    · exact ⟨d, number⟩
    · exact numbers other hother
  have length : 2 ≤ ((before ++ inner :: after).map literal?).length := by
    have := List.length_pos_iff.mpr several
    simp only [List.length_map, List.length_append, List.length_cons] at this ⊢
    omega
  have mem : some (.number (.finite d)) ∈ (before ++ inner :: after).map literal? :=
    number ▸ List.mem_map_of_mem (List.mem_append_right _ List.mem_cons_self)
  obtain ⟨found, hfound, hmem⟩ := Alternatives.literalEnum_eq_numbers entries length
  exact ⟨found, hfound, hmem d mem⟩

end

end Schema

end SchemaDoc
