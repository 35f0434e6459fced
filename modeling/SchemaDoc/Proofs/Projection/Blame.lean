import SchemaDoc.Proofs.Projection.BareDocuments

/-!
# Where projections of bare schemas fail

A schema is blamed at a location if its projection fails there, wherever the schema is met. A struct,
a tuple or a union is blamed at the location of the first part that is blamed, one step further in.
Only a union with a number that JSON cannot write may be blamed at its own place.
-/
namespace SchemaDoc

/-- However it is met, the projection of the schema fails with a number that JSON cannot write, and
steps lead from the schema to the location. -/
def Schema.Blames (schema : Schema) (inField : Bool) (steps : Location) : Prop :=
  ∀ follow trail, Projection.node follow inField trail schema =
    .error (.nonFiniteLiteral (trail.location ++ steps))

namespace Schema

variable {identity : Identity} {notes : Annotations} {inField : Bool} {steps : Location}
  {inner : Schema}

theorem blames_node {shape : Shape Schema}
    (h : ∀ follow trail, Projection.shapeOf follow inField trail shape =
      .error (.nonFiniteLiteral (trail.location ++ steps))) :
    (Schema.node identity shape notes).Blames inField steps := by
  intro follow trail
  rw [Projection.node, h]
  rfl

theorem blames_number {x : Binary64} (hx : x.finite? = none) :
    (Schema.node identity (.literal (.number x)) notes).Blames inField [] := by
  have noJson : (Literal.number x).toJson? = none := by rw [Literal.toJson?, hx]; rfl
  refine blames_node fun follow trail => ?_
  rw [Projection.shapeOf, Projection.ofLiteral, noJson, List.append_nil]

/-- The location of a part, with the steps in it. -/
theorem Blames.enter (h : inner.Blames inField steps) (follow : Trail → Reference Schema → Outcome)
    (trail : Trail) (step : LocationStep) :
    Projection.node follow inField (trail.enter step) inner =
      .error (.nonFiniteLiteral (trail.location ++ step :: steps)) := by
  rw [h, Trail.enter, List.append_assoc, List.singleton_append]

theorem blames_field {before after : List (Field Schema)} {field : Field Schema}
    {index : Option Schema} (hbefore : ∀ other ∈ before, ∃ document, other.node.Yields true document)
    (h : field.node.Blames true steps) :
    (Schema.node identity (.struct (before ++ field :: after) index) notes).Blames inField
      (.property field.name :: steps) := by
  refine blames_node fun follow trail => ?_
  rw [Projection.shapeOf, Projection.fieldsOf_eq_mapM, mapM_append_cons_eq_error]
  · rfl
  · intro other mem
    obtain ⟨document, hdocument⟩ := hbefore other mem
    exact ⟨_, by rw [hdocument]; rfl⟩
  · rw [h.enter]
    rfl

theorem blames_index {fields : List (Field Schema)}
    (hfields : ∀ field ∈ fields, ∃ document, field.node.Yields true document)
    (h : inner.Blames false steps) :
    (Schema.node identity (.struct fields (some inner)) notes).Blames inField
      (.additionalProperties :: steps) := by
  refine blames_node fun follow trail => ?_
  have properties : ∀ field ∈ fields, ∃ property, (do
      return (field.name, Json.object (← Projection.node follow true
        (trail.enter (.property field.name)) field.node)) : Except _ _) = .ok property := by
    intro field mem
    obtain ⟨document, hdocument⟩ := hfields field mem
    exact ⟨_, by rw [hdocument]; rfl⟩
  obtain ⟨made, hmade⟩ := exists_forall₂ properties
  rw [Projection.shapeOf, Projection.fieldsOf_eq_mapM, mapM_eq_ok_of_forall₂ hmade,
    Projection.optional, h.enter]
  rfl

theorem blames_element {before after : List (Element Schema)} {element : Element Schema}
    {rest : Option Schema}
    (hbefore : ∀ other ∈ before, ∃ document, other.node.Yields false document)
    (hrest : ∀ inner, rest = some inner → ∃ document, inner.Yields false document)
    (h : element.node.Blames false steps) :
    (Schema.node identity (.tuple (before ++ element :: after) rest) notes).Blames inField
      (.item before.length :: steps) := by
  refine blames_node fun follow trail => ?_
  obtain ⟨others, hothers⟩ := exists_optionRel hrest
  rw [Projection.shapeOf, Projection.elementsOf_eq_mapM, Projection.optional_eq_mapM,
    optionMapM_eq_ok_of_rel (optionRel_imp (fun inner document h => h follow _) hothers),
    List.zipIdx_append, List.zipIdx_cons, mapM_append_cons_eq_error]
  · rfl
  · rintro ⟨other, place⟩ mem
    obtain ⟨document, hdocument⟩ := hbefore other (List.fst_mem_of_mem_zipIdx mem)
    exact ⟨document, hdocument follow _⟩
  · rw [Nat.zero_add]
    exact h.enter follow trail _

theorem blames_rest {elements : List (Element Schema)} (h : inner.Blames false steps) :
    (Schema.node identity (.tuple elements (some inner)) notes).Blames inField
      ((if elements.isEmpty then .items else .additionalItems) :: steps) := by
  refine blames_node fun follow trail => ?_
  rw [Projection.shapeOf, Projection.optional, h.enter]
  rfl

section

variable {members before after : List Schema}
  (same : members.filter (Projection.counts inField members) = before ++ inner :: after)

include same

theorem blames_only (alone : before ++ after = []) (h : inner.Blames false steps) :
    (Schema.node identity (.union members) notes).Blames inField steps := by
  obtain ⟨rfl, rfl⟩ := List.append_eq_nil_iff.mp alone
  refine blames_node fun follow trail => ?_
  rw [Projection.shapeOf, same, Projection.ofUnion_of_no_literalEnum rfl,
    Projection.membersOf_eq_mapM, same, List.zipIdx_append, List.zipIdx_cons,
    mapM_append_cons_eq_error]
  · rfl
  · exact fun _ mem => absurd mem List.not_mem_nil
  · exact h follow trail

theorem blames_numbers {x : Binary64} (hx : x.finite? = none) (several : before ++ after ≠ [])
    (number : inner.literal? = some (.number x))
    (reached : ∀ other ∈ before, ∃ d, other.literal? = some (.number (.finite d))) :
    (Schema.node identity (.union members) notes).Blames inField [] := by
  refine blames_node fun follow trail => ?_
  have entries : ∀ entry ∈ before.map literal?, ∃ d, entry = some (.number (.finite d)) := by
    intro entry mem
    obtain ⟨other, hother, rfl⟩ := List.mem_map.mp mem
    exact reached other hother
  have length : 2 ≤ (before.map literal? ++ some (.number x) :: after.map literal?).length := by
    have := List.length_pos_iff.mpr several
    simp only [List.length_append, List.length_cons, List.length_map] at this ⊢
    omega
  rw [Projection.shapeOf, same, List.map_append, List.map_cons, number, Projection.ofUnion,
    Alternatives.literalEnum_eq_nonFinite hx entries length, List.append_nil]
  rfl

theorem blames_alternative (several : before ++ after ≠ [])
    (notEnum : ∀ location, Alternatives.literalEnum location
      ((before ++ inner :: after).map Schema.literal?) = .ok none)
    (hbefore : ∀ other ∈ before, ∃ document, other.Yields false document)
    (h : inner.Blames false steps) : (Schema.node identity (.union members) notes).Blames inField
      (.alternative before.length :: steps) := by
  refine blames_node fun follow trail => ?_
  have several : ((before ++ inner :: after).length == 1) = false := by
    have := List.length_pos_iff.mpr several
    refine beq_eq_false_iff_ne.mpr ?_
    simp only [List.length_append, List.length_cons] at this ⊢
    omega
  rw [Projection.shapeOf, same, Projection.ofUnion_of_no_literalEnum (notEnum _),
    Projection.membersOf_eq_mapM, same, List.zipIdx_append, List.zipIdx_cons,
    mapM_append_cons_eq_error]
  · rfl
  · rintro ⟨other, place⟩ mem
    obtain ⟨document, hdocument⟩ := hbefore other (List.fst_mem_of_mem_zipIdx mem)
    exact ⟨document, hdocument follow _⟩
  · rw [several, Nat.zero_add]
    exact h.enter follow trail _

end

end Schema

end SchemaDoc
