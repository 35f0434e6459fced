import SchemaDoc.Proofs.Json.Canonical
import SchemaDoc.Proofs.Projection.Depth
import SchemaDoc.Proofs.Projection.NamedOnce

/-!
# Enumerations in documents

What the traversal of a graph meets is projected, and the enumeration that is made of it stands in
the document of the graph, as long as no hint on the way writes over the members that lead there. A
union leaves out a document only if it keeps one of the same canonical form.
-/
namespace SchemaDoc

/-- The names of the members that lead to an enumeration and make it up. -/
def Members.enumerating : List String := "type" :: "enum" :: holding

/-- A schema of the numbers that are listed, in their order. -/
structure Members.EnumeratesNumbers (document : Members) (numbers : List Number) : Prop where
  type : document.get? "type" = some (.string "number")
  enum : document.get? "enum" = some (.array (numbers.map .number))

theorem Members.EnumeratesNumbers.of_get?_eq {document other : Members} {numbers : List Number}
    (h : document.EnumeratesNumbers numbers)
    (same : ∀ name ∈ enumerating, other.get? name = document.get? name) :
    other.EnumeratesNumbers numbers where
  type := (same "type" (by decide)).trans h.type
  enum := (same "enum" (by decide)).trans h.enum

namespace Json

variable {root position value other : Json} {document others : Members}

theorem Position.of_inner {inner : Json} (step : document.Inner inner)
    (h : inner.Position position) : (Json.object document).Position position := by
  induction h with
  | root => exact .inner .root step
  | inner _ further ih => exact .inner ih further

theorem Position.eq_or_inner (h : root.Position position) : position = root ∨
    ∃ (document : Members) (inner : Json), root = .object document ∧ document.Inner inner ∧
      inner.Position position := by
  induction h with
  | root => exact .inl rfl
  | inner _ step ih =>
    rcases ih with same | ⟨document, inner, rfl, first, further⟩
    · exact .inr ⟨_, _, same.symm, step, .root⟩
    · exact .inr ⟨document, inner, rfl, first, .inner further step⟩

/-- A schema of the document enumerates numbers that have a property. -/
def ShowsNumbers (value : Json) (good : List Number → Prop) : Prop :=
  ∃ (shown : Members) (numbers : List Number), value.Position (.object shown) ∧
    shown.EnumeratesNumbers numbers ∧ good numbers

namespace ShowsNumbers

variable {good : List Number → Prop}

theorem of_inner (step : document.Inner value) (h : value.ShowsNumbers good) :
    (Json.object document).ShowsNumbers good := by
  obtain ⟨shown, numbers, reached, enumerates⟩ := h
  exact ⟨shown, numbers, reached.of_inner step, enumerates⟩

/-- Values of one canonical form show the same numbers. -/
theorem of_canonical (h : value.ShowsNumbers good) (same : value.canonical = other.canonical) :
    other.ShowsNumbers good := by
  obtain ⟨shown, numbers, reached, enumerates, hgood⟩ := h
  obtain ⟨position, reached', forms⟩ := reached.exists_of_canonical same
  obtain ⟨shown', rfl⟩ := exists_members_of_canonical forms.symm
  obtain ⟨type, hasType, typeForm⟩ := exists_get?_of_canonical forms enumerates.type
  obtain ⟨enum, hasEnum, enumForm⟩ := exists_get?_of_canonical forms enumerates.enum
  rw [eq_string_of_canonical typeForm.symm] at hasType
  rw [eq_numbers_of_canonical enumForm.symm] at hasEnum
  exact ⟨shown', numbers, reached', ⟨hasType, hasEnum⟩, hgood⟩

/-- Members that enumerations are not found by may be added and replaced. -/
theorem of_get?_eq (h : (Json.object document).ShowsNumbers good)
    (same : ∀ name ∈ Members.enumerating, others.get? name = document.get? name) :
    (Json.object others).ShowsNumbers good := by
  obtain ⟨shown, numbers, reached, enumerates, hgood⟩ := h
  rcases reached.eq_or_inner with here | ⟨_, inner, hdocument, step, further⟩
  · cases here
    exact ⟨others, numbers, .root, enumerates.of_get?_eq same, hgood⟩
  · cases hdocument
    have step' : others.Inner inner := step.of_get?_eq fun name mem =>
      (same name (List.mem_cons_of_mem _ (List.mem_cons_of_mem _ mem))).symm
    exact ⟨shown, numbers, further.of_inner step', enumerates, hgood⟩

end ShowsNumbers

end Json

section

variable {good : List Number → Prop} {document : Members} {documents : List Members}

/-! ## Documents of several parts -/

namespace Projection

variable {fields : List (Field Schema)} {properties : Members} {others : Option Members}

theorem showsNumbers_ofStruct_of_property (nodup : properties.names.Nodup) {name : String}
    (mem : (name, Json.object document) ∈ properties)
    (h : (Json.object document).ShowsNumbers good) :
    (Json.object (ofStruct fields properties others)).ShowsNumbers good := by
  have found : (ofStruct fields properties others).get? "properties" =
      some (.object properties) := by
    rw [ofStruct, Members.ofList_eq_self nodup]
    rfl
  exact h.of_inner (.property found mem)

theorem showsNumbers_ofStruct_of_index (h : (Json.object document).ShowsNumbers good) :
    (Json.object (ofStruct fields properties (some document))).ShowsNumbers good :=
  h.of_inner (.additionalProperties rfl)

end Projection

namespace Sequence

variable {least most : Option Nat} {rest : Option Members}

theorem showsNumbers_laid_of_item (mem : document ∈ documents)
    (h : (Json.object document).ShowsNumbers good) :
    (Json.object (laid documents least most rest)).ShowsNumbers good := by
  rcases itemsOf_cases documents with ⟨only, rfl, same⟩ | ⟨-, same⟩
  · obtain rfl := List.mem_singleton.mp mem
    exact h.of_inner (.items (items_laid.trans (congrArg some same)))
  · exact h.of_inner (.item (items_laid.trans (congrArg some same)) (List.mem_map_of_mem mem))

theorem showsNumbers_document_of_element {elements : List (Element Schema)}
    (nonempty : elements ≠ []) (mem : document ∈ documents)
    (h : (Json.object document).ShowsNumbers good) :
    (Json.object (Sequence.document elements documents rest)).ShowsNumbers good := by
  obtain ⟨least, most, further, same⟩ := exists_laid_of_ne_nil nonempty documents rest
  rw [same]
  exact showsNumbers_laid_of_item mem h

/-- The schema of further items is left out only if a single item says the same. -/
theorem showsNumbers_document_of_rest {elements : List (Element Schema)}
    (h : (Json.object document).ShowsNumbers good) :
    (Json.object (Sequence.document elements documents (some document))).ShowsNumbers good := by
  rcases document_cases elements documents (some document) with ⟨others, -, hrest, same⟩ |
    ⟨single, same⟩ | ⟨others, -, hrest, -, same⟩ | ⟨hrest, -⟩
  · cases hrest
    rw [same]
    exact showsNumbers_laid_of_item (List.mem_singleton_self _) h
  · rw [same]
    unfold isNonEmptyList at single
    split at single
    · next hrest =>
      cases hrest
      obtain ⟨-, keys⟩ := Bool.and_eq_true_iff.mp single
      exact showsNumbers_laid_of_item (List.mem_singleton_self _)
        (h.of_canonical (Json.canonical_eq_of_key_eq (beq_iff_eq.mp keys).symm))
    · cases single
  · cases hrest
    rw [same]
    exact h.of_inner (.additionalItems additionalItems_laid)
  · cases hrest

end Sequence

namespace Alternatives

/-- A document that is left out says the same as one that is kept. -/
theorem showsNumbers_join (mem : document ∈ documents)
    (h : (Json.object document).ShowsNumbers good) :
    (Json.object (join documents)).ShowsNumbers good := by
  obtain ⟨kept, hkept, keys⟩ := exists_key_of_mem mem List.not_mem_nil
  have shown : (Json.object kept).ShowsNumbers good :=
    h.of_canonical (Json.canonical_eq_of_key_eq keys.symm)
  rcases join_cases (List.ne_nil_of_mem mem) with ⟨only, single, same⟩ | ⟨-, same⟩
  · rw [single] at hkept
    rw [same, ← List.mem_singleton.mp hkept]
    exact shown
  · have arms : (listed (distinct [] documents)).get? "oneOf" =
        some (.array ((distinct [] documents).map Json.object)) := by
      unfold listed
      split <;> rfl
    rw [same]
    exact shown.of_inner (.alternative arms (List.mem_map_of_mem hkept))

end Alternatives

/-! ## Writing over documents -/

/-- The hints leave alone what leads to enumerations. -/
def Constraint.LeavesEnumerations (constraint : Constraint) : Prop :=
  ∀ hint ∈ constraint.hints, hint.1 ∉ Members.enumerating

theorem Constraint.showsNumbers_applyAll {constraints : List Constraint}
    (hints : ∀ constraint ∈ constraints, constraint.LeavesEnumerations)
    (h : (Json.object document).ShowsNumbers good) :
    (Json.object (applyAll document constraints)).ShowsNumbers good := by
  have apart : ∀ name ∈ Members.enumerating,
      name ∉ ["minimum", "exclusiveMinimum", "maximum", "exclusiveMaximum"] := by decide
  refine h.of_get?_eq fun name mem => get?_applyAll_of_ne ?_ (apart name mem) document
  exact fun constraint hconstraint hint hhint same =>
    hints constraint hconstraint hint hhint (same ▸ mem)

theorem Annotations.get?_overlay_of_enumerating (notes : Annotations) (document : Members) :
    ∀ name ∈ Members.enumerating, (notes.overlay document).get? name = document.get? name := by
  have apart : ∀ name ∈ Members.enumerating, name ∉ ["title", "description", "examples"] := by
    decide
  exact fun name mem => notes.get?_overlay document (apart name mem)

theorem Annotations.showsNumbers_overlay (notes : Annotations)
    (h : (Json.object document).ShowsNumbers good) :
    (Json.object (notes.overlay document)).ShowsNumbers good :=
  h.of_get?_eq (notes.get?_overlay_of_enumerating document)

theorem ProjectionOptions.showsNumbers_headed (options : ProjectionOptions)
    (nodup : document.names.Nodup) (h : (Json.object document).ShowsNumbers good) :
    (Json.object (options.headed document)).ShowsNumbers good := by
  unfold headed
  split
  · refine h.of_get?_eq fun name mem => ?_
    have other : name ≠ "$schema" := ne_of_mem_of_not_mem mem (by decide)
    rw [Members.get?_putAll nodup]
    simp [Members.get?, List.lookup_cons, beq_eq_false_iff_ne.mpr other]
  · exact h

/-! ## Ways through shapes -/

theorem Projection.mem_filter_counts {inField : Bool} {members : List Schema} {member : Schema}
    (mem : member ∈ members) (occupied : member.isVoid = false) :
    member ∈ members.filter (counts inField members) :=
  List.mem_filter.mpr ⟨mem, by simp [counts, occupied]⟩

/-- A shape shows what each of its parts shows, unless it is an enumeration itself. -/
theorem Shape.Makes.showsNumbers_of_part {part : Bool → Schema → Members → Prop}
    {target : Reference Schema → Members → Prop} {inField : Bool} {shape : Shape Schema}
    (made : shape.Makes part target inField document) {inner : Schema}
    (hpart : shape.Part inner) (occupied : inner.isVoid = false)
    (named : ∀ fields index, shape = .struct fields index → (fields.map Field.name).Nodup)
    (hints : ∀ base constraints, shape = .refinement base constraints →
      ∀ constraint ∈ constraints, constraint.LeavesEnumerations)
    (shown : ∀ inField' document, part inField' inner document →
      (Json.object document).ShowsNumbers good)
    (enumerated : ∀ members location, shape = .union members → inner ∈ members →
      Alternatives.literalEnum location ((members.filter (Projection.counts inField members)).map
        Schema.literal?) = .ok (some document) → (Json.object document).ShowsNumbers good) :
    (Json.object document).ShowsNumbers good := by
  cases made with
  | @struct fields index properties others hproperties hothers =>
    have names : properties.names = fields.map Field.name := names_of_fields _ hproperties
    cases hpart with
    | field mem =>
      obtain ⟨property, hproperty, written, hwritten, rfl⟩ :=
        exists_of_mem_right hproperties.flip mem
      exact Projection.showsNumbers_ofStruct_of_property (names ▸ named fields index rfl) hproperty
        (shown _ _ hwritten)
    | index =>
      cases hothers with
      | some hindex => exact Projection.showsNumbers_ofStruct_of_index (shown _ _ hindex)
  | @tuple elements rest documents others hdocuments hothers =>
    cases hpart with
    | element mem =>
      obtain ⟨written, hwritten, hshown⟩ := exists_of_mem_right hdocuments.flip mem
      exact Sequence.showsNumbers_document_of_element (List.ne_nil_of_mem mem) hwritten
        (shown _ _ hshown)
    | rest =>
      cases hothers with
      | some hrest => exact Sequence.showsNumbers_document_of_rest (shown _ _ hrest)
  | @enumeration members location _ found =>
    cases hpart with
    | member mem => exact enumerated members location rfl mem found
  | @union members documents hdocuments =>
    cases hpart with
    | member mem =>
      obtain ⟨written, hwritten, hshown⟩ :=
        exists_of_mem_right hdocuments.flip (Projection.mem_filter_counts mem occupied)
      exact Alternatives.showsNumbers_join hwritten (shown _ _ hshown)
  | refinement constraints hbase =>
    cases hpart with
    | base => exact Constraint.showsNumbers_applyAll (hints _ _ rfl) (shown _ _ hbase)
  | _ => cases hpart

end

/-! ## Ways through graphs -/

namespace Visit

variable {bindings : Bindings} {start next visit : Visit}

/-- No refinement on the way writes over what leads to enumerations. -/
def LeavesEnumerations (visit : Visit) : Prop :=
  ∀ schema ∈ visit.above, ∀ base constraints, schema.shape = .refinement base constraints →
    ∀ constraint ∈ constraints, constraint.LeavesEnumerations

/-- The node stands right inside a union of these members. -/
structure InUnion (visit : Visit) (members : List Schema) : Prop where
  above : ∃ union ∈ visit.above.head?, union.shape = .union members
  mem : visit.schema ∈ members

theorem Step.above_eq (step : Step bindings start next) :
    next.above = start.schema :: start.above := by
  cases step <;> rfl

theorem Steps.suffix (steps : Steps bindings start visit) : start.above <:+ visit.above := by
  induction steps with
  | refl => exact List.suffix_refl _
  | tail _ step ih => exact step.above_eq ▸ ih.trans (List.suffix_cons _ _)

/-- The first node of a way is above the last one. -/
theorem Steps.mem_above (step : Step bindings start next) (steps : Steps bindings next visit) :
    start.schema ∈ visit.above :=
  steps.suffix.subset (step.above_eq ▸ List.mem_cons_self)

/-- From a literal, and from what stands for nothing, no way leads further. -/
theorem Steps.eq_of_leaf (steps : Steps bindings start visit)
    (leaf : (∃ literal, start.schema.shape = .literal literal) ∨
      start.schema.shape = .primitive .void) : visit = start := by
  rcases steps.cases_head with same | ⟨next, step, -⟩
  · exact same.symm
  · exfalso
    cases step with
    | part part =>
      rcases leaf with ⟨literal, hshape⟩ | hshape <;> rw [hshape] at part <;> cases part
    | target hreference =>
      rcases leaf with ⟨literal, hshape⟩ | hshape <;> rw [hshape] at hreference <;> cases hreference

theorem Steps.isVoid_eq_false (steps : Steps bindings start visit)
    (occupied : visit.schema.isVoid = false) : start.schema.isVoid = false := by
  cases hvoid : start.schema.isVoid with
  | false => rfl
  | true =>
    have hshape : start.schema.shape = .primitive .void := by
      unfold Schema.isVoid at hvoid
      split at hvoid
      · assumption
      · cases hvoid
    rw [steps.eq_of_leaf (.inr hshape), hvoid] at occupied
    cases occupied

end Visit

namespace Projection

variable {bindings : Bindings} {cap : Nat} {good : List Number → Prop} {start visit : Visit}

/-- A document shows what a node shows that the traversal gets to. If that is a literal right inside
a union, the union may be an enumeration. -/
theorem showsNumbers_of_steps (steps : Visit.Steps bindings start visit)
    (occupied : visit.schema.isVoid = false) (leaves : visit.LeavesEnumerations)
    (named : ∀ inner, Reachable bindings start.schema inner → ∀ fields index,
      inner.shape = .struct fields index → (fields.map Field.name).Nodup)
    (shown : ∀ follow inField trail document, node follow inField trail visit.schema = .ok document →
      (Json.object document).ShowsNumbers good)
    (enumerated : ∀ members inField location document, visit.InUnion members →
      Alternatives.literalEnum location ((members.filter (counts inField members)).map
        Schema.literal?) = .ok (some document) → (Json.object document).ShowsNumbers good)
    {remaining : Nat} {inField : Bool} {trail : Trail} {document : Members}
    (follows : trail.Follows start.above)
    (h : node (follow bindings cap remaining) inField trail start.schema = .ok document) :
    (Json.object document).ShowsNumbers good := by
  -- From the start on, since the trail and what may still be followed change with each step.
  induction steps using Relation.ReflTransGen.head_induction_on
    generalizing remaining inField trail document with
  | refl => exact shown _ _ _ _ h
  | @head start next step rest ih =>
    have entered := follows.visit start.schema
    have above : start.schema ∈ visit.above := Visit.Steps.mem_above step rest
    replace ih := @ih fun inner reached => named inner (.head step.toSchema reached)
    rw [node_eq] at h
    obtain ⟨projected, hprojected, h⟩ := bind_eq_ok.mp h
    cases h
    apply Annotations.showsNumbers_overlay
    have made := makes_below_of_shapeOf_eq_ok hprojected
    cases step with
    | @part inner part =>
      apply made.showsNumbers_of_part part (Visit.Steps.isVoid_eq_false rest occupied)
        (named start.schema .refl) (leaves start.schema above)
      · rintro inField' document ⟨trail', same, hinner⟩
        exact ih (entered.of_visited same) hinner
      · intro members location hshape mem found
        -- All members that count are literals, so the way ends here.
        have counted : inner ∈ members.filter (counts inField members) :=
          mem_filter_counts mem (Visit.Steps.isVoid_eq_false rest occupied)
        obtain ⟨literal, value, hliteral, -⟩ :=
          Alternatives.literalEnum_eq_some found _ (List.mem_map_of_mem counted)
        have hinner := shape_eq_of_literal? hliteral
        obtain rfl := Visit.Steps.eq_of_leaf rest (.inl ⟨literal, hinner⟩)
        exact enumerated members inField location _ ⟨⟨start.schema, rfl, hshape⟩, mem⟩ found
    | @target reference inner hshape resolved fresh =>
      rw [hshape, shapeOf] at hprojected
      cases remaining with
      | zero => cases hprojected
      | succ remaining =>
        have notContained : ¬ (trail.visit start.schema.identity).contains inner.identity = true :=
          fun contained => fresh ((entered.contains_iff inner).mp contained)
        simp only [follow, resolved, if_neg notContained] at hprojected
        exact ih entered hprojected

end Projection

end SchemaDoc
