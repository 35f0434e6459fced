import SchemaDoc.Proofs.InStep
import SchemaDoc.Proofs.Projection.Traversal

/-!
# What documents are made of

A projection that succeeds makes the document of a shape from those of the parts, one way for each
kind of shape. `Shape.Makes` lists these ways, so that an invariant of documents needs one case for
each of them and never looks at the traversal.
-/
namespace SchemaDoc

/-- A document of a shape, made from documents of its parts and of what references lead to. Whether
a part is the type of a field is told beside it. -/
inductive Shape.Makes (part : Bool → Schema → Members → Prop)
    (target : Reference Schema → Members → Prop) (inField : Bool) : Shape Schema → Members → Prop
  | primitive (primitive : Primitive) :
      Makes part target inField (.primitive primitive) (Projection.ofPrimitive primitive)
  | literal {literal : Literal} {value : Json} : literal.toJson? = some value →
      Makes part target inField (.literal literal)
        (Alternatives.enumeration literal.scalarType [value])
  | struct {fields : List (Field Schema)} {index : Option Schema} {properties : Members}
      {others : Option Members} :
      List.Forall₂ (fun field property => ∃ document, part true field.node document ∧
        property = (field.name, Json.object document)) fields properties →
      Option.Rel (part false) index others →
      Makes part target inField (.struct fields index)
        (Projection.ofStruct fields properties others)
  | tuple {elements : List (Element Schema)} {rest : Option Schema} {documents : List Members}
      {others : Option Members} :
      List.Forall₂ (fun element document => part false element.node document) elements documents →
      Option.Rel (part false) rest others →
      Makes part target inField (.tuple elements rest)
        (Sequence.document elements documents others)
  | enumeration {members : List Schema} {location : Location} {document : Members} :
      Alternatives.literalEnum location ((members.filter (Projection.counts inField members)).map
        Schema.literal?) = .ok (some document) →
      Makes part target inField (.union members) document
  | union {members : List Schema} {documents : List Members} :
      List.Forall₂ (part false) (members.filter (Projection.counts inField members)) documents →
      Makes part target inField (.union members) (Alternatives.join documents)
  | refinement {base : Schema} {document : Members} (constraints : List Constraint) :
      part false base document →
      Makes part target inField (.refinement base constraints)
        (Constraint.applyAll document constraints)
  | recursive {reference : Reference Schema} {document : Members} : target reference document →
      Makes part target inField (.recursive reference) document
  | hidden : Makes part target inField .hidden []

/-- The properties of fields have their names. -/
theorem names_of_fields (made : Schema → Members → Prop) {fields : List (Field Schema)}
    {properties : Members} (h : List.Forall₂ (fun field property => ∃ document,
      made field.node document ∧ property = (field.name, Json.object document)) fields properties) :
    properties.names = fields.map Field.name := by
  refine map_eq_of_forall₂ ?_ h
  rintro field property ⟨document, -, rfl⟩
  rfl

/-- What makes a document may be told in other words, part by part. -/
theorem Shape.Makes.imp {part part' : Bool → Schema → Members → Prop}
    {target target' : Reference Schema → Members → Prop} {inField : Bool} {shape : Shape Schema}
    {document : Members} (made : shape.Makes part target inField document)
    (parts : ∀ inField' inner document, shape.Part inner → part inField' inner document →
      part' inField' inner document)
    (targets : ∀ reference document, shape = .recursive reference → target reference document →
      target' reference document) : shape.Makes part' target' inField document := by
  cases made with
  | primitive primitive => exact .primitive primitive
  | literal hvalue => exact .literal hvalue
  | @struct fields index properties others hproperties hothers =>
    apply Shape.Makes.struct
    · refine (forall₂_mem hproperties).imp fun field property h => ?_
      obtain ⟨mem, document, hdocument, same⟩ := h
      exact ⟨document, parts _ _ _ (.field mem) hdocument, same⟩
    · cases hothers with
      | none => exact .none
      | some hindex => exact .some (parts _ _ _ .index hindex)
  | @tuple elements rest documents others hdocuments hothers =>
    apply Shape.Makes.tuple
    · exact (forall₂_mem hdocuments).imp fun element document h => parts _ _ _ (.element h.1) h.2
    · cases hothers with
      | none => exact .none
      | some hrest => exact .some (parts _ _ _ .rest hrest)
  | enumeration found => exact .enumeration found
  | @union members documents hdocuments =>
    refine .union ((forall₂_mem hdocuments).imp fun member document h => ?_)
    exact parts _ _ _ (.member (List.mem_filter.mp h.1).1) h.2
  | refinement constraints hbase => exact .refinement constraints (parts _ _ _ .base hbase)
  | recursive htarget => exact .recursive (targets _ _ rfl htarget)
  | hidden => exact .hidden

namespace Projection

variable {follow : Trail → Reference Schema → Outcome} {inField : Bool} {trail : Trail}

/-- A shape makes its document from those that its parts have on the same way. -/
theorem makes_below_of_shapeOf_eq_ok {shape : Shape Schema} {document : Members}
    (h : shapeOf follow inField trail shape = .ok document) :
    shape.Makes (fun inField' inner document => ∃ trail', trail'.visited = trail.visited ∧
        node follow inField' trail' inner = .ok document)
      (fun reference document => follow trail reference = .ok document) inField document := by
  cases shape with
  | primitive primitive =>
    cases h
    exact .primitive primitive
  | literal literal =>
    simp only [shapeOf, ofLiteral] at h
    split at h
    · next hvalue =>
      cases h
      exact .literal hvalue
    · cases h
  | struct fields index =>
    rw [shapeOf, fieldsOf_eq_mapM, optional_eq_mapM] at h
    obtain ⟨properties, hproperties, h⟩ := bind_eq_ok.mp h
    obtain ⟨others, hothers, h⟩ := bind_eq_ok.mp h
    cases h
    refine .struct ((forall₂_of_mapM_eq_ok hproperties).imp ?_) ?_
    · intro field property hfield
      obtain ⟨document, hdocument, hfield⟩ := bind_eq_ok.mp hfield
      cases hfield
      exact ⟨document, ⟨_, Trail.enter_visited _ _, hdocument⟩, rfl⟩
    · exact optionRel_imp (fun _ _ h => ⟨_, Trail.enter_visited _ _, h⟩)
        (rel_of_optionMapM_eq_ok hothers)
  | tuple elements rest =>
    rw [shapeOf, elementsOf_eq_mapM, optional_eq_mapM] at h
    obtain ⟨others, hothers, h⟩ := bind_eq_ok.mp h
    obtain ⟨documents, hdocuments, h⟩ := bind_eq_ok.mp h
    cases h
    refine .tuple (forall₂_of_zipIdx (i := 0) ?_) ?_
    · exact (forall₂_of_mapM_eq_ok hdocuments).imp fun _ _ h => ⟨_, Trail.enter_visited _ _, h⟩
    · exact optionRel_imp (fun _ _ h => ⟨_, Trail.enter_visited _ _, h⟩)
        (rel_of_optionMapM_eq_ok hothers)
  | union members =>
    rw [shapeOf, membersOf_eq_mapM] at h
    obtain ⟨found, hfound, h⟩ := bind_eq_ok.mp h
    cases found with
    | some document =>
      cases h
      exact .enumeration hfound
    | none =>
      obtain ⟨documents, hdocuments, h⟩ := bind_eq_ok.mp h
      cases h
      refine .union (forall₂_of_zipIdx ((forall₂_of_mapM_eq_ok hdocuments).imp fun _ _ h => ?_))
      exact ⟨_, Trail.alternative_visited _ _ _, h⟩
  | refinement base constraints =>
    obtain ⟨document, hdocument, h⟩ := bind_eq_ok.mp h
    cases h
    exact .refinement constraints ⟨_, rfl, hdocument⟩
  | recursive reference => exact .recursive h
  | hidden =>
    cases h
    exact .hidden

theorem makes_of_shapeOf_eq_ok {shape : Shape Schema} {document : Members}
    (h : shapeOf follow inField trail shape = .ok document) :
    shape.Makes (fun inField' inner document =>
        ∃ trail', node follow inField' trail' inner = .ok document)
      (fun reference document => follow trail reference = .ok document) inField document := by
  apply (makes_below_of_shapeOf_eq_ok h).imp
  · rintro inField' inner document - ⟨trail', -, h⟩
    exact ⟨trail', h⟩
  · exact fun reference document _ h => h

section

variable {bindings : Bindings} {root schema : Schema} {document : Members}
  {P : Bool → Schema → Members → Prop}

theorem holds_of_node_of_follow
    (made : ∀ schema inField document, Reachable bindings root schema →
      schema.shape.Makes P (fun reference document => document = stub ∨
        ∃ target, reference.resolve bindings = .ok target ∧ P false target document)
        inField document → P inField schema (schema.notes.overlay document))
    (following : ∀ schema reference trail document, Reachable bindings root schema →
      schema.shape = .recursive reference → follow trail reference = .ok document →
      document = stub ∨ ∃ target, reference.resolve bindings = .ok target ∧ P false target document)
    (reached : Reachable bindings root schema)
    (h : node follow inField trail schema = .ok document) : P inField schema document := by
  induction schema using Schema.induction_on_parts generalizing inField trail document with
  | node identity shape notes ih =>
    obtain ⟨inner, hinner, h⟩ := bind_eq_ok.mp h
    cases h
    apply made (.node identity shape notes) inField inner reached
    apply (makes_of_shapeOf_eq_ok hinner).imp
    · intro inField' part document hpart h
      obtain ⟨trail', h⟩ := h
      exact ih part hpart (reached.tail (.part hpart)) h
    · intro reference document hshape h
      exact following (.node identity shape notes) reference _ document reached hshape h

/-- What every shape passes on from its parts, and a reference from its target or a stub, holds of
all documents. -/
theorem holds_of_node
    (made : ∀ schema inField document, Reachable bindings root schema →
      schema.shape.Makes P (fun reference document => document = stub ∨
        ∃ target, reference.resolve bindings = .ok target ∧ P false target document)
        inField document → P inField schema (schema.notes.overlay document))
    {cap remaining : Nat} (reached : Reachable bindings root schema)
    (h : node (Projection.follow bindings cap remaining) inField trail schema = .ok document) :
    P inField schema document := by
  induction remaining generalizing inField trail schema document with
  | zero =>
    apply holds_of_node_of_follow made _ reached h
    intro _ _ _ _ _ _ failed
    cases failed
  | succ remaining ih =>
    apply holds_of_node_of_follow made _ reached h
    intro schema reference trail document reached hshape followed
    simp only [Projection.follow] at followed
    split at followed
    · cases followed
      exact .inl rfl
    · next target resolved =>
      split at followed
      · cases followed
        exact .inl rfl
      · exact .inr ⟨target, resolved, ih (reached.tail (.target hshape resolved)) followed⟩

end

end Projection

end SchemaDoc
