import Mathlib.Logic.Relation
import SchemaDoc.Definition.Basic

/-!
# The parts of schemas and definitions

A traversal of a schema goes from a node into its parts and, at a reference, to the target. Only
the parts are inside the node; a proof about all schemas is an induction on them. References may
lead anywhere, so what is beyond them is told by `Step` and its reflexive transitive closure.
-/
namespace SchemaDoc

/-- The schemas that a shape is made of. The target of a reference is not one of them. -/
inductive Shape.Part {σ : Type} : Shape σ → σ → Prop
  | field {fields : List (Field σ)} {index : Option σ} {field : Field σ} :
      field ∈ fields → Part (.struct fields index) field.node
  | index {fields : List (Field σ)} {inner : σ} : Part (.struct fields (some inner)) inner
  | element {elements : List (Element σ)} {rest : Option σ} {element : Element σ} :
      element ∈ elements → Part (.tuple elements rest) element.node
  | rest {elements : List (Element σ)} {inner : σ} : Part (.tuple elements (some inner)) inner
  | member {members : List σ} {inner : σ} : inner ∈ members → Part (.union members) inner
  | base {inner : σ} {constraints : List Constraint} : Part (.refinement inner constraints) inner

/-- The definitions that a form is made of. -/
inductive Form.Part {δ : Type} : Form δ → δ → Prop
  | field {fields : List (Field δ)} {index : Option δ} {field : Field δ} :
      field ∈ fields → Part (.struct fields index) field.node
  | index {fields : List (Field δ)} {inner : δ} : Part (.struct fields (some inner)) inner
  | element {elements : List (Element δ)} {rest : Option δ} {element : Element δ} :
      element ∈ elements → Part (.tuple elements rest) element.node
  | rest {elements : List (Element δ)} {inner : δ} : Part (.tuple elements (some inner)) inner
  | items {inner : δ} {nonEmpty : Bool} : Part (.array inner nonEmpty) inner
  | member {members : List δ} {inner : δ} : inner ∈ members → Part (.union members) inner
  | base {inner : δ} {constraints : List Constraint} : Part (.refinement inner constraints) inner

theorem Field.sizeOf_node_lt {σ : Type} [SizeOf σ] (field : Field σ) {fields : List (Field σ)}
    (mem : field ∈ fields) : sizeOf field.node < sizeOf fields := by
  have hmem := List.sizeOf_lt_of_mem mem
  obtain ⟨name, node, optional⟩ := field
  rw [Field.mk.sizeOf_spec] at hmem
  change sizeOf node < sizeOf fields
  omega

theorem Element.sizeOf_node_lt {σ : Type} [SizeOf σ] (element : Element σ)
    {elements : List (Element σ)} (mem : element ∈ elements) :
    sizeOf element.node < sizeOf elements := by
  have hmem := List.sizeOf_lt_of_mem mem
  obtain ⟨node, optional⟩ := element
  rw [Element.mk.sizeOf_spec] at hmem
  change sizeOf node < sizeOf elements
  omega

theorem Shape.Part.of_index {σ : Type} {fields : List (Field σ)} {index : Option σ} {inner : σ}
    (h : index = some inner) : Part (.struct fields index) inner := h ▸ .index

theorem Shape.Part.of_rest {σ : Type} {elements : List (Element σ)} {rest : Option σ} {inner : σ}
    (h : rest = some inner) : Part (.tuple elements rest) inner := h ▸ .rest

theorem Form.Part.of_index {δ : Type} {fields : List (Field δ)} {index : Option δ} {inner : δ}
    (h : index = some inner) : Part (.struct fields index) inner := h ▸ .index

theorem Form.Part.of_rest {δ : Type} {elements : List (Element δ)} {rest : Option δ} {inner : δ}
    (h : rest = some inner) : Part (.tuple elements rest) inner := h ▸ .rest

/-- The parts of a shape in their order. -/
def Shape.parts {σ : Type} : Shape σ → List σ
  | .struct fields index => fields.map Field.node ++ index.toList
  | .tuple elements rest => elements.map Element.node ++ rest.toList
  | .union members => members
  | .refinement base _ => [base]
  | .primitive _ => []
  | .literal _ => []
  | .recursive _ => []
  | .hidden => []

theorem Shape.mem_parts_iff {σ : Type} {shape : Shape σ} {inner : σ} :
    inner ∈ shape.parts ↔ shape.Part inner := by
  constructor
  · intro mem
    cases shape with
    | struct fields index =>
      rcases List.mem_append.mp mem with mem | mem
      · obtain ⟨field, hfield, rfl⟩ := List.mem_map.mp mem
        exact .field hfield
      · exact .of_index (Option.mem_toList.mp mem)
    | tuple elements rest =>
      rcases List.mem_append.mp mem with mem | mem
      · obtain ⟨element, helement, rfl⟩ := List.mem_map.mp mem
        exact .element helement
      · exact .of_rest (Option.mem_toList.mp mem)
    | union members => exact .member mem
    | refinement base constraints =>
      obtain rfl := List.mem_singleton.mp mem
      exact .base
    | primitive => cases mem
    | literal => cases mem
    | recursive => cases mem
    | hidden => cases mem
  · intro part
    cases part with
    | field mem => exact List.mem_append_left _ (List.mem_map_of_mem mem)
    | index => exact List.mem_append_right _ (List.mem_singleton_self _)
    | element mem => exact List.mem_append_left _ (List.mem_map_of_mem mem)
    | rest => exact List.mem_append_right _ (List.mem_singleton_self _)
    | member mem => exact mem
    | base => exact List.mem_singleton_self _

theorem Shape.Part.sizeOf_lt {shape : Shape Schema} {inner : Schema} (part : shape.Part inner) :
    sizeOf inner < sizeOf shape := by
  cases part with
  | @field fields index field mem =>
    have hnode := field.sizeOf_node_lt mem
    simp only [Shape.struct.sizeOf_spec]
    omega
  | index =>
    simp only [Shape.struct.sizeOf_spec, Option.some.sizeOf_spec]
    omega
  | @element elements rest element mem =>
    have hnode := element.sizeOf_node_lt mem
    simp only [Shape.tuple.sizeOf_spec]
    omega
  | rest =>
    simp only [Shape.tuple.sizeOf_spec, Option.some.sizeOf_spec]
    omega
  | member mem =>
    have hmem := List.sizeOf_lt_of_mem mem
    simp only [Shape.union.sizeOf_spec]
    omega
  | base =>
    simp only [Shape.refinement.sizeOf_spec]
    omega

theorem Form.Part.sizeOf_lt {form : Form Definition} {inner : Definition}
    (part : form.Part inner) : sizeOf inner < sizeOf form := by
  cases part with
  | @field fields index field mem =>
    have hnode := field.sizeOf_node_lt mem
    simp only [Form.struct.sizeOf_spec]
    omega
  | index =>
    simp only [Form.struct.sizeOf_spec, Option.some.sizeOf_spec]
    omega
  | @element elements rest element mem =>
    have hnode := element.sizeOf_node_lt mem
    simp only [Form.tuple.sizeOf_spec]
    omega
  | rest =>
    simp only [Form.tuple.sizeOf_spec, Option.some.sizeOf_spec]
    omega
  | items =>
    simp only [Form.array.sizeOf_spec]
    omega
  | member mem =>
    have hmem := List.sizeOf_lt_of_mem mem
    simp only [Form.union.sizeOf_spec]
    omega
  | base =>
    simp only [Form.refinement.sizeOf_spec]
    omega

/-- What passes from the parts of every node to the node holds of all schemas. -/
theorem Schema.induction_on_parts {motive : Schema → Prop}
    (node : ∀ identity shape notes,
      (∀ inner, shape.Part inner → motive inner) → motive (.node identity shape notes))
    (schema : Schema) : motive schema := by
  match schema with
  | .node identity shape notes =>
    exact node identity shape notes fun inner part => Schema.induction_on_parts node inner
termination_by sizeOf schema
decreasing_by
  have smaller := part.sizeOf_lt
  simp only [Schema.node.sizeOf_spec]
  omega

/-- What passes from the parts of every definition to it holds of all definitions. -/
theorem Definition.induction_on_parts {motive : Definition → Prop}
    (mk : ∀ form notes, (∀ inner, form.Part inner → motive inner) → motive (.mk form notes))
    (definition : Definition) : motive definition := by
  match definition with
  | .mk form notes =>
    exact mk form notes fun inner part => Definition.induction_on_parts mk inner
termination_by sizeOf definition
decreasing_by
  have smaller := part.sizeOf_lt
  simp only [Definition.mk.sizeOf_spec]
  omega

namespace Schema

/-- The node is a reference. -/
def isReference (schema : Schema) : Bool :=
  match schema.shape with
  | .recursive _ => true
  | _ => false

theorem isReference_of_shape {schema : Schema} {reference : Reference Schema}
    (h : schema.shape = .recursive reference) : schema.isReference = true := by
  simp [isReference, h]

theorem exists_of_isReference {schema : Schema} (h : schema.isReference = true) :
    ∃ reference, schema.shape = .recursive reference := by
  unfold isReference at h
  split at h
  · exact ⟨_, by assumption⟩
  · cases h

/-- A reference has no parts. -/
theorem not_isReference_of_part {schema inner : Schema} (part : schema.shape.Part inner) :
    schema.isReference = false := by
  unfold isReference
  split
  · next h =>
    rw [h] at part
    cases part
  · rfl

/-- A literal that JSON cannot write. -/
def IsNonFinite (schema : Schema) : Prop :=
  ∃ x : Binary64, schema.shape = .literal (.number x) ∧ x.finite? = none

/-- The same node, met twice. A copy that only its maker holds is met once. -/
def SameNode (one other : Schema) : Prop :=
  one.identity = other.identity ∧ other.identity ≠ .unshared

end Schema

/-- A step of a traversal: into a part, or from a reference to its target. -/
inductive Step (bindings : Bindings) (schema : Schema) : Schema → Prop
  | part {inner : Schema} : schema.shape.Part inner → Step bindings schema inner
  | target {reference : Reference Schema} {inner : Schema} :
      schema.shape = .recursive reference → reference.resolve bindings = .ok inner →
        Step bindings schema inner

/-- A schema that some steps lead to. -/
abbrev Reachable (bindings : Bindings) : Schema → Schema → Prop :=
  Relation.ReflTransGen (Step bindings)

/-- What is reached from one of several schemas that lead to no others is one of them. -/
theorem mem_of_reachable {bindings : Bindings} {all : List Schema}
    (parts : ∀ schema ∈ all, ∀ inner ∈ schema.shape.parts, inner ∈ all)
    (targets : ∀ schema ∈ all, ∀ reference, schema.shape = .recursive reference →
      ∀ target, reference.resolve bindings = .ok target → target ∈ all)
    {root schema : Schema} (mem : root ∈ all) (reached : Reachable bindings root schema) :
    schema ∈ all := by
  induction reached with
  | refl => exact mem
  | tail _ step ih =>
    cases step with
    | part part => exact parts _ ih _ (Shape.mem_parts_iff.mpr part)
    | target hshape resolved => exact targets _ ih _ hshape _ resolved

/-- No number literal of the graph is infinite or undefined. -/
def Graph.Finite (graph : Graph) : Prop :=
  ∀ schema, Reachable graph.bindings graph.root schema → ¬ schema.IsNonFinite

end SchemaDoc
