import SchemaDoc.Proofs.Projection.Congruence
import SchemaDoc.Proofs.Projection.Traversal

/-!
# Plain recursion

The documents of schemas without any guard: no nodes are remembered, nothing is counted, and a
reference stands for its target, so there are no stubs either. Such a recursion need not end; it is
defined where it does, by recursion on `Schema.Unfolds`. `plainShape_eq` says that it agrees with
the projection on a shape if it does on the parts, so all differences between the two come from
references.
-/
namespace SchemaDoc

/-- Plain recursion from the schema ends, and finds a target for every reference. -/
inductive Schema.Unfolds (bindings : Bindings) : Schema → Prop
  | intro {schema : Schema}
      (resolves : ∀ reference, schema.shape = .recursive reference →
        ∃ target, reference.resolve bindings = .ok target)
      (steps : ∀ inner, Step bindings schema inner → Unfolds bindings inner) :
      Unfolds bindings schema

namespace Projection

/-- Projects a shape that stands at a location, given how its parts are projected and where its
reference leads. -/
def plainShape (inField : Bool) (location : Location) (shape : Shape Schema)
    (part : (inner : Schema) → shape.Part inner → Bool → Location → Outcome)
    (target : (reference : Reference Schema) → shape = .recursive reference → Outcome) : Outcome :=
  match shape, part, target with
  | .primitive primitive, _, _ => return ofPrimitive primitive
  | .literal literal, _, _ => ofLiteral location literal
  | .struct fields index, part, _ => do
    let properties ← fields.attach.mapM fun field => do
      let document ← part field.1.node (.field field.2) true (location ++ [.property field.1.name])
      return (field.1.name, Json.object document)
    let others ← index.attach.mapM fun inner =>
      part inner.1 (.of_index inner.2) false (location ++ [.additionalProperties])
    return ofStruct fields properties others
  | .tuple elements rest, part, _ => do
    let step : LocationStep := if elements.isEmpty then .items else .additionalItems
    let others ← rest.attach.mapM fun inner =>
      part inner.1 (.of_rest inner.2) false (location ++ [step])
    let documents ← elements.zipIdx.attach.mapM fun element =>
      part element.1.1.node (.element (List.fst_mem_of_mem_zipIdx element.2)) false
        (location ++ [.item element.1.2])
    return Sequence.document elements documents others
  | .union members, part, _ => do
    let present := Alternatives.present Schema.isVoid inField members
    match ← Alternatives.literalEnum location (present.map Schema.literal?) with
    | some document => return document
    | none =>
      let documents ← present.zipIdx.attach.mapM fun member =>
        part member.1.1
          (.member (Alternatives.mem_of_mem_present (List.fst_mem_of_mem_zipIdx member.2))) false
          (if present.length = 1 then location else location ++ [.alternative member.1.2])
      return Alternatives.join documents
  | .refinement base constraints, part, _ => do
    let document ← part base .base false location
    return Constraint.applyAll document constraints
  | .recursive reference, _, target => target reference rfl
  | .hidden, _, _ => return []

/-- Projects a schema that stands at a location, and whatever its references lead to. -/
noncomputable def plain (bindings : Bindings) (schema : Schema)
    (unfolds : schema.Unfolds bindings) : Bool → Location → Outcome :=
  unfolds.rec fun {schema} resolves _ self inField location => do
    let document ← plainShape inField location schema.shape
      (fun inner part => self inner (.part part))
      fun reference hshape =>
        match hresolve : reference.resolve bindings with
        | .ok target => self target (.target hshape hresolve) false location
        | .error _ => absurd (resolves reference hshape) (by simp [hresolve])
    return schema.notes.overlay document

theorem alternative_location (trail : Trail) (count place : Nat) :
    (trail.alternative (count == 1) place).location =
      if count = 1 then trail.location else trail.location ++ [.alternative place] := by
  by_cases h : count = 1 <;> simp [Trail.alternative, Trail.enter, h]

/-- Plain recursion agrees with the projection on a shape if it does on the parts and, where the
shape is a reference, on the target. -/
theorem plainShape_eq {follow : Trail → Reference Schema → Outcome} {inField : Bool} (trail : Trail)
    {shape : Shape Schema} {part : (inner : Schema) → shape.Part inner → Bool → Location → Outcome}
    {target : (reference : Reference Schema) → shape = .recursive reference → Outcome}
    (parts : ∀ inner h inField' trail', trail'.visited = trail.visited →
      part inner h inField' trail'.location = node follow inField' trail' inner)
    (references : ∀ reference h, target reference h = follow trail reference) :
    plainShape inField trail.location shape part target = shapeOf follow inField trail shape := by
  cases shape with
  | primitive primitive => rfl
  | hidden => rfl
  | literal literal => rfl
  | struct fields index =>
    have hfields : ∀ field : { field // field ∈ fields },
        part field.1.node (.field field.2) true (trail.location ++ [.property field.1.name]) =
          node follow true (trail.enter (.property field.1.name)) field.1.node := fun field =>
      parts _ _ true (trail.enter _) rfl
    have hindex : ∀ inner : { inner // index = some inner },
        part inner.1 (.of_index inner.2) false (trail.location ++ [.additionalProperties]) =
          node follow false (trail.enter .additionalProperties) inner.1 := fun inner =>
      parts _ _ false (trail.enter _) rfl
    rw [shapeOf, fieldsOf_eq_mapM, optional_eq_mapM, ← mapM_attach, ← optionMapM_attach]
    simp only [plainShape, hfields, hindex]
  | tuple elements rest =>
    have hrest : ∀ inner : { inner // rest = some inner },
        part inner.1 (.of_rest inner.2) false
            (trail.location ++ [if elements.isEmpty then .items else .additionalItems]) =
          node follow false
            (trail.enter (if elements.isEmpty then .items else .additionalItems)) inner.1 :=
      fun inner => parts _ _ false (trail.enter _) rfl
    have helements : ∀ element : { element // element ∈ elements.zipIdx },
        part element.1.1.node (.element (List.fst_mem_of_mem_zipIdx element.2)) false
            (trail.location ++ [.item element.1.2]) =
          node follow false (trail.enter (.item element.1.2)) element.1.1.node := fun element =>
      parts _ _ false (trail.enter _) rfl
    rw [shapeOf, elementsOf_eq_mapM, optional_eq_mapM, ← mapM_attach, ← optionMapM_attach]
    simp only [plainShape, hrest, helements]
  | union members =>
    let present := Alternatives.present Schema.isVoid inField members
    have hmembers : ∀ member : { member // member ∈ present.zipIdx },
        part member.1.1
            (.member (Alternatives.mem_of_mem_present (List.fst_mem_of_mem_zipIdx member.2))) false
            (if present.length = 1 then trail.location
              else trail.location ++ [.alternative member.1.2]) =
          node follow false (trail.alternative (present.length == 1) member.1.2) member.1.1 := by
      intro member
      rw [← alternative_location]
      exact parts _ _ false _ (Trail.alternative_visited _ _ _)
    rw [shapeOf, membersOf_eq_mapM, filter_counts, ← mapM_attach]
    simp only [plainShape, ofUnion]
    refine congrArg (_ >>= ·) (funext fun found => ?_)
    cases found with
    | some document => rfl
    | none => simp only [hmembers, present]
  | refinement base constraints =>
    rw [shapeOf, ← parts base .base false trail rfl]
    rfl
  | recursive reference => exact references reference rfl

/-- The recursion step: parts are projected in their places, and a reference as its target. -/
theorem plain_intro {bindings : Bindings} {schema : Schema}
    (resolves : ∀ reference, schema.shape = .recursive reference →
      ∃ target, reference.resolve bindings = .ok target)
    (steps : ∀ inner, Step bindings schema inner → inner.Unfolds bindings) (inField : Bool)
    (location : Location) :
    plain bindings schema (.intro resolves steps) inField location = do
      let document ← plainShape inField location schema.shape
        (fun inner part => plain bindings inner (steps inner (.part part)))
        fun reference hshape =>
          match hresolve : reference.resolve bindings with
          | .ok target =>
            plain bindings target (steps target (.target hshape hresolve)) false location
          | .error _ => absurd (resolves reference hshape) (by simp [hresolve])
      return schema.notes.overlay document := rfl

/-- Plain recursion agrees with the projection on a schema if it does on the parts and, where the
schema is a reference, on the target. -/
theorem plain_eq_of_steps {bindings : Bindings} {follow : Trail → Reference Schema → Outcome}
    {inField : Bool} {trail : Trail} {schema : Schema}
    (parts : ∀ inner, schema.shape.Part inner → ∀ unfolds inField' trail',
      trail'.visited = (trail.visit schema.identity).visited →
        plain bindings inner unfolds inField' trail'.location =
          node follow inField' trail' inner)
    (references : ∀ reference target, schema.shape = .recursive reference →
      reference.resolve bindings = .ok target → ∀ unfolds,
        plain bindings target unfolds false trail.location =
          follow (trail.visit schema.identity) reference)
    (unfolds : schema.Unfolds bindings) :
    plain bindings schema unfolds inField trail.location = node follow inField trail schema := by
  obtain ⟨resolves, steps⟩ := unfolds
  rw [plain_intro resolves steps, node_eq, ← plainShape_eq (trail.visit schema.identity)]
  · rfl
  · intro inner part inField' trail' same
    exact parts inner part _ inField' trail' same
  · intro reference hshape
    obtain ⟨target, htarget⟩ := resolves reference hshape
    split
    · next found hresolve => exact references reference found hshape hresolve _
    · next hresolve => exact absurd (htarget.symm.trans hresolve) (by simp)

end Projection

end SchemaDoc
