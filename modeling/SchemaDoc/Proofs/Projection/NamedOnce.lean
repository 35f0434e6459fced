import SchemaDoc.Proofs.Projection.CoherentDocuments

/-!
# Documents name their members once

However a document is made, no object in it has two members of one name, as long as this holds of
the values that are attached to schemas: hints and examples.
-/
namespace SchemaDoc

/-- No object in a hint or an example of the schema, or of what it leads to, has two members of one
name. -/
def Schema.ValuesUnambiguous (bindings : Bindings) (schema : Schema) : Prop :=
  ∀ inner, Reachable bindings schema inner →
    (∀ base constraints, inner.shape = .refinement base constraints →
      ∀ constraint ∈ constraints, ∀ hint ∈ constraint.hints, hint.2.Unambiguous) ∧
    ∀ value ∈ inner.notes.examples, value.Unambiguous

/-- Without hints and examples there is nothing in which a name could be repeated. -/
theorem Schema.ValuesUnambiguous.of_bare {bindings : Bindings} {schema : Schema}
    (bare : ∀ inner, Reachable bindings schema inner →
      (∀ base constraints, inner.shape ≠ .refinement base constraints) ∧
        inner.notes.examples = []) : schema.ValuesUnambiguous bindings := by
  intro inner reached
  obtain ⟨plain, none⟩ := bare inner reached
  refine ⟨fun base constraints refined => absurd refined (plain base constraints), ?_⟩
  rw [none]
  exact List.forall_mem_nil _

theorem Schema.ValuesUnambiguous.of_part {bindings : Bindings} {identity : Identity}
    {shape : Shape Schema} {notes : Annotations} {inner : Schema}
    (h : (Schema.node identity shape notes).ValuesUnambiguous bindings) (part : shape.Part inner) :
    inner.ValuesUnambiguous bindings :=
  fun further reached => h further (.head (.part part) reached)

/-- Without hints and examples of its own, a node has those of its parts. -/
theorem Schema.ValuesUnambiguous.of_parts {bindings : Bindings} {identity : Identity}
    {shape : Shape Schema} (plain : ∀ base constraints, shape ≠ .refinement base constraints)
    (direct : ∀ reference, shape ≠ .recursive reference)
    (parts : ∀ inner, shape.Part inner → inner.ValuesUnambiguous bindings) :
    (Schema.make identity shape).ValuesUnambiguous bindings := by
  intro further reached
  rcases reached.cases_head with rfl | ⟨inner, step, reached⟩
  · exact ⟨fun base constraints refined => absurd refined (plain base constraints),
      List.forall_mem_nil _⟩
  · cases step with
    | part part => exact parts inner part further reached
    | target same => exact absurd same (direct _)

namespace Alternatives

theorem unambiguous_listed {documents : List Members}
    (valid : ∀ document ∈ documents, (Json.object document).Unambiguous) :
    (Json.object (listed documents)).Unambiguous := by
  have arms : (Json.array (documents.map Json.object)).Unambiguous := by
    apply Json.Unambiguous.array
    intro arm mem
    obtain ⟨document, hdocument, rfl⟩ := List.mem_map.mp mem
    exact valid document hdocument
  unfold listed
  split
  · next name _ =>
    have told : (Json.object [("propertyName", .string name)]).Unambiguous :=
      .object (List.nodup_singleton _) (List.forall_mem_singleton.mpr (.string name))
    exact .object (by simp [Members.names])
      (List.forall_mem_cons.mpr ⟨arms, List.forall_mem_singleton.mpr told⟩)
  · exact .object (List.nodup_singleton _) (List.forall_mem_singleton.mpr arms)

theorem nodup_names_listed (documents : List Members) : (listed documents).names.Nodup := by
  unfold listed
  split <;> simp [Members.names]

theorem nodup_names_join {documents : List Members}
    (nodup : ∀ document ∈ documents, document.names.Nodup) : (join documents).names.Nodup := by
  unfold join
  split
  · exact nodup _ (List.mem_singleton_self _)
  · split
    · next only same =>
      exact nodup only ((distinct_sublist [] documents).subset (same ▸ List.mem_singleton_self only))
    · exact nodup_names_listed _

theorem unambiguous_join {documents : List Members}
    (valid : ∀ document ∈ documents, (Json.object document).Unambiguous) :
    (Json.object (join documents)).Unambiguous := by
  have kept : ∀ document ∈ distinct [] documents, (Json.object document).Unambiguous :=
    fun document mem => valid document ((distinct_sublist [] documents).subset mem)
  unfold join
  split
  · exact valid _ (List.mem_singleton_self _)
  · split
    · next only same =>
      rw [same] at kept
      exact kept only (List.mem_singleton_self only)
    · exact unambiguous_listed kept

end Alternatives

theorem Sequence.unambiguous_document {elements : List (Element Schema)} {documents : List Members}
    {rest : Option Members} (valid : ∀ document ∈ documents, (Json.object document).Unambiguous)
    (hrest : ∀ document, rest = some document → (Json.object document).Unambiguous) :
    (Json.object (document elements documents rest)).Unambiguous := by
  have none : ∀ document : Members, Option.none = some document →
      (Json.object document).Unambiguous := by
    intro document absent
    cases absent
  rcases document_cases elements documents rest with ⟨others, -, rfl, same⟩ | ⟨-, same⟩ |
    ⟨others, -, rfl, -, same⟩ | ⟨rfl, same⟩
  · rw [same]
    exact unambiguous_laid (List.forall_mem_singleton.mpr (hrest others rfl)) none
  · rw [same]
    exact unambiguous_laid valid none
  · rw [same]
    exact unambiguous_laid valid hrest
  · rw [same]
    exact unambiguous_laid valid none

theorem Constraint.unambiguous_applyAll {document : Members}
    (valid : (Json.object document).Unambiguous) {constraints : List Constraint}
    (hints : ∀ constraint ∈ constraints, ∀ hint ∈ constraint.hints, hint.2.Unambiguous) :
    (Json.object (applyAll document constraints)).Unambiguous := by
  rw [applyAll_eq_putAll]
  apply valid.putAll
  intro write mem
  obtain ⟨hint, hhint, hwrite⟩ := List.mem_flatMap.mp mem
  obtain ⟨constraint, hconstraint, hhint⟩ := List.mem_flatMap.mp hhint
  have value := hints constraint hconstraint hint hhint
  rcases mem_writes hwrite with rfl | ⟨_, -, -, rfl | rfl⟩ | ⟨_, -, -, rfl | rfl⟩
  · exact value
  · exact value
  · exact .bool true
  · exact value
  · exact .bool true

theorem Annotations.unambiguous_overlay {notes : Annotations} {document : Members}
    (valid : (Json.object document).Unambiguous)
    (examples : ∀ value ∈ notes.examples, value.Unambiguous) :
    (Json.object (notes.overlay document)).Unambiguous := by
  rw [overlay_eq_putAll]
  exact valid.putAll fun write mem => unambiguous_of_mem_writes examples mem

/-- Shapes pass it on from the documents of their parts. -/
theorem Shape.Makes.unambiguous {part : Bool → Schema → Members → Prop}
    {target : Reference Schema → Members → Prop} {inField : Bool} {shape : Shape Schema}
    {document : Members} (made : shape.Makes part target inField document)
    (hints : ∀ base constraints, shape = .refinement base constraints →
      ∀ constraint ∈ constraints, ∀ hint ∈ constraint.hints, hint.2.Unambiguous)
    (parts : ∀ inField' inner document, part inField' inner document →
      (Json.object document).Unambiguous)
    (targets : ∀ reference document, target reference document →
      (Json.object document).Unambiguous) :
    (Json.object document).Unambiguous := by
  cases made with
  | primitive primitive => exact (Projection.sound_ofPrimitive primitive).unambiguous
  | literal hvalue => exact (Alternatives.sound_of_literal hvalue).unambiguous
  | struct hproperties hothers =>
    apply Projection.unambiguous_ofStruct
    · intro member mem
      obtain ⟨field, -, document, hdocument, rfl⟩ := exists_of_mem_right hproperties mem
      exact parts _ _ _ hdocument
    · rintro document rfl
      cases hothers with
      | some hindex => exact parts _ _ _ hindex
  | tuple hdocuments hothers =>
    apply Sequence.unambiguous_document
    · intro document mem
      obtain ⟨element, -, hdocument⟩ := exists_of_mem_right hdocuments mem
      exact parts _ _ _ hdocument
    · rintro document rfl
      cases hothers with
      | some hrest => exact parts _ _ _ hrest
  | enumeration found => exact (Alternatives.sound_of_literalEnum found).unambiguous
  | union hdocuments =>
    apply Alternatives.unambiguous_join
    intro document mem
    obtain ⟨member, -, hdocument⟩ := exists_of_mem_right hdocuments mem
    exact parts _ _ _ hdocument
  | refinement constraints hbase =>
    exact Constraint.unambiguous_applyAll (parts _ _ _ hbase) (hints _ _ rfl)
  | recursive htarget => exact targets _ _ htarget
  | hidden => exact Json.unambiguous_empty

/-- A document itself names its members once, whatever its hints and examples are. -/
theorem Shape.Makes.nodup_names {part : Bool → Schema → Members → Prop}
    {target : Reference Schema → Members → Prop} {inField : Bool} {shape : Shape Schema}
    {document : Members} (made : shape.Makes part target inField document)
    (parts : ∀ inField' inner document, part inField' inner document → document.names.Nodup)
    (targets : ∀ reference document, target reference document → document.names.Nodup) :
    document.names.Nodup := by
  cases made with
  | primitive primitive => exact (Projection.sound_ofPrimitive primitive).unambiguous.nodup
  | literal hvalue => exact (Alternatives.sound_of_literal hvalue).unambiguous.nodup
  | struct => simp [Projection.ofStruct, Members.names]
  | @tuple elements rest documents others =>
    obtain ⟨items, least, most, further, same⟩ := Sequence.exists_laid elements documents others
    exact same ▸ Sequence.nodup_names_laid items least most further
  | enumeration found => exact (Alternatives.sound_of_literalEnum found).unambiguous.nodup
  | union hdocuments =>
    apply Alternatives.nodup_names_join
    intro document mem
    obtain ⟨member, -, hdocument⟩ := exists_of_mem_right hdocuments mem
    exact parts _ _ _ hdocument
  | refinement constraints hbase =>
    rw [Constraint.applyAll_eq_putAll]
    exact Members.nodup_names_putAll (parts _ _ _ hbase) _
  | recursive htarget => exact targets _ _ htarget
  | hidden => exact List.nodup_nil

namespace Projection

theorem nodup_names_of_node {bindings : Bindings} {cap remaining : Nat} {inField : Bool}
    {trail : Trail} {schema : Schema} {document : Members}
    (h : node (follow bindings cap remaining) inField trail schema = .ok document) :
    document.names.Nodup := by
  apply holds_of_node (P := fun _ _ document => document.names.Nodup) _ .refl h
  intro inner inField document _ made
  rw [Annotations.overlay_eq_putAll]
  apply Members.nodup_names_putAll
  apply made.nodup_names (fun _ _ _ h => h)
  rintro reference document (rfl | ⟨target, -, h⟩)
  · exact sound_stub.unambiguous.nodup
  · exact h

/-- No object in a document has two members of one name. -/
theorem unambiguous_of_node {bindings : Bindings} {cap remaining : Nat} {inField : Bool}
    {trail : Trail} {schema : Schema} {document : Members}
    (valid : schema.ValuesUnambiguous bindings)
    (h : node (follow bindings cap remaining) inField trail schema = .ok document) :
    (Json.object document).Unambiguous := by
  apply holds_of_node (P := fun _ _ document => (Json.object document).Unambiguous) _ .refl h
  intro inner inField document reached made
  obtain ⟨hints, examples⟩ := valid inner reached
  apply Annotations.unambiguous_overlay _ examples
  apply made.unambiguous hints (fun _ _ _ h => h)
  rintro reference document (rfl | ⟨target, -, h⟩)
  · exact sound_stub.unambiguous
  · exact h

end Projection

end SchemaDoc
