import Mathlib.Data.List.Basic
import SchemaDoc.Proofs.Schema.Parts

/-!
# The number literals of a schema

The number literals of a schema are listed from left to right, without those that are beyond a
reference. They can be exchanged all together by a function on numbers, which leaves everything
else of the schema as it is.
-/
namespace SchemaDoc

/-- The number that a shape is, if it is one. -/
def Shape.number? {σ : Type} : Shape σ → Option Binary64
  | .literal (.number x) => some x
  | _ => none

/-- The number literals of a schema, from left to right. -/
def Schema.numbers (schema : Schema) : List Binary64 :=
  match schema with
  | .node _ shape _ =>
    shape.number?.toList ++ shape.parts.attach.flatMap fun inner => inner.1.numbers
termination_by sizeOf schema
decreasing_by
  have smaller := (Shape.mem_parts_iff.mp inner.2).sizeOf_lt
  simp only [Schema.node.sizeOf_spec]
  omega

theorem Schema.numbers_node (identity : Identity) (shape : Shape Schema) (notes : Annotations) :
    (Schema.node identity shape notes).numbers =
      shape.number?.toList ++ shape.parts.flatMap Schema.numbers := by
  rw [numbers, List.flatMap_subtype (g := Schema.numbers) fun _ _ => rfl, List.unattach_attach]

section

variable (f : Binary64 → Binary64)

mutual

/-- The schema with its number literals exchanged. -/
def Schema.mapNumbers : Schema → Schema
  | .node identity shape notes => .node identity shape.mapNumbers notes

def Shape.mapNumbers : Shape Schema → Shape Schema
  | .literal (.number x) => .literal (.number (f x))
  | .struct fields index => .struct (mapFieldNumbers fields) (mapOptionalNumbers index)
  | .tuple elements rest => .tuple (mapElementNumbers elements) (mapOptionalNumbers rest)
  | .union members => .union (mapMemberNumbers members)
  | .refinement base constraints => .refinement base.mapNumbers constraints
  | shape => shape

def mapFieldNumbers : List (Field Schema) → List (Field Schema)
  | [] => []
  | ⟨name, schema, optional⟩ :: rest => ⟨name, schema.mapNumbers, optional⟩ :: mapFieldNumbers rest

def mapElementNumbers : List (Element Schema) → List (Element Schema)
  | [] => []
  | ⟨schema, optional⟩ :: rest => ⟨schema.mapNumbers, optional⟩ :: mapElementNumbers rest

def mapMemberNumbers : List Schema → List Schema
  | [] => []
  | schema :: rest => schema.mapNumbers :: mapMemberNumbers rest

def mapOptionalNumbers : Option Schema → Option Schema
  | none => none
  | some schema => some schema.mapNumbers

end

variable {f}

theorem mapFieldNumbers_eq_map (fields : List (Field Schema)) :
    mapFieldNumbers f fields = fields.map fun field =>
      { field with node := field.node.mapNumbers f } := by
  induction fields with
  | nil => rfl
  | cons field rest ih => rw [mapFieldNumbers, ih, List.map_cons]

theorem mapElementNumbers_eq_map (elements : List (Element Schema)) :
    mapElementNumbers f elements = elements.map fun element =>
      { element with node := element.node.mapNumbers f } := by
  induction elements with
  | nil => rfl
  | cons element rest ih => rw [mapElementNumbers, ih, List.map_cons]

theorem mapMemberNumbers_eq_map (members : List Schema) :
    mapMemberNumbers f members = members.map (Schema.mapNumbers f) := by
  induction members with
  | nil => rfl
  | cons member rest ih => rw [mapMemberNumbers, ih, List.map_cons]

theorem mapOptionalNumbers_eq_map (schema? : Option Schema) :
    mapOptionalNumbers f schema? = schema?.map (Schema.mapNumbers f) := by
  cases schema? <;> rfl

theorem Shape.parts_mapNumbers (shape : Shape Schema) :
    (shape.mapNumbers f).parts = shape.parts.map (Schema.mapNumbers f) := by
  cases shape with
  | struct fields index =>
    cases index <;> simp [mapNumbers, parts, mapFieldNumbers_eq_map, mapOptionalNumbers_eq_map]
  | tuple elements rest =>
    cases rest <;> simp [mapNumbers, parts, mapElementNumbers_eq_map, mapOptionalNumbers_eq_map]
  | union members => exact mapMemberNumbers_eq_map members
  | literal literal => cases literal <;> rfl
  | refinement => rfl
  | primitive => rfl
  | recursive => rfl
  | hidden => rfl

theorem Shape.mapNumbers_eq_self {shape : Shape Schema}
    (parts : ∀ inner, shape.Part inner → inner.mapNumbers f = inner)
    (number : ∀ x, shape.number? = some x → f x = x) : shape.mapNumbers f = shape := by
  have optional : ∀ {schema? : Option Schema},
      (∀ inner, schema? = some inner → inner.mapNumbers f = inner) →
        mapOptionalNumbers f schema? = schema? := by
    intro schema? h
    cases schema? with
    | none => rfl
    | some inner => exact congrArg some (h inner rfl)
  cases shape with
  | literal literal =>
    cases literal with
    | number x => rw [mapNumbers, number x rfl]
    | _ => rfl
  | struct fields index =>
    rw [mapNumbers, mapFieldNumbers_eq_map, optional fun inner h => parts inner (.of_index h)]
    have same : ∀ field ∈ fields, { field with node := field.node.mapNumbers f } = field :=
      fun field mem => by rw [parts field.node (.field mem)]
    rw [List.map_congr_left same, List.map_id']
  | tuple elements rest =>
    rw [mapNumbers, mapElementNumbers_eq_map, optional fun inner h => parts inner (.of_rest h)]
    have same : ∀ element ∈ elements, { element with node := element.node.mapNumbers f } = element :=
      fun element mem => by rw [parts element.node (.element mem)]
    rw [List.map_congr_left same, List.map_id']
  | union members =>
    rw [mapNumbers, mapMemberNumbers_eq_map]
    rw [List.map_congr_left fun member mem => parts member (.member mem), List.map_id']
  | refinement base constraints => rw [mapNumbers, parts base .base]
  | _ => rfl

/-- A schema stays as it is if its numbers do. -/
theorem Schema.mapNumbers_eq_self {schema : Schema} (h : ∀ x ∈ schema.numbers, f x = x) :
    schema.mapNumbers f = schema := by
  induction schema using Schema.induction_on_parts with
  | node identity shape notes ih =>
    rw [numbers_node] at h
    obtain ⟨number, parts⟩ := List.forall_mem_append.mp h
    rw [mapNumbers, Shape.mapNumbers_eq_self]
    · intro inner part
      exact ih inner part fun x mem =>
        parts x (List.mem_flatMap.mpr ⟨inner, Shape.mem_parts_iff.mpr part, mem⟩)
    · exact fun x hx => number x (Option.mem_toList.mpr hx)

end

/-! ## Bare schemas -/

/-- The shape can be built, and neither refines nor refers. -/
def Shape.Bare {σ : Type} : Shape σ → Prop
  | .struct fields _ => (fields.map Field.name).Nodup
  | .union members => members ≠ []
  | .refinement _ _ => False
  | .recursive _ => False
  | _ => True

/-- A schema without annotations, refinements and references. -/
inductive Schema.Bare : Schema → Prop
  | node {identity : Identity} {shape : Shape Schema} : shape.Bare →
      (∀ inner, shape.Part inner → Bare inner) → Bare (.node identity shape .none)

theorem Shape.bare_mapNumbers {f : Binary64 → Binary64} {shape : Shape Schema} (h : shape.Bare) :
    (shape.mapNumbers f).Bare := by
  cases shape with
  | struct fields index => simpa [mapNumbers, Bare, mapFieldNumbers_eq_map, Function.comp_def] using h
  | union members => simpa [mapNumbers, Bare, mapMemberNumbers_eq_map] using h
  | literal literal => cases literal <;> trivial
  | refinement => exact h
  | recursive => exact h
  | _ => trivial

theorem Schema.bare_mapNumbers {f : Binary64 → Binary64} {schema : Schema} (h : schema.Bare) :
    (schema.mapNumbers f).Bare := by
  induction h with
  | node shape _ ih =>
    refine .node (Shape.bare_mapNumbers shape) fun inner part => ?_
    rw [← Shape.mem_parts_iff, Shape.parts_mapNumbers] at part
    obtain ⟨inner, mem, rfl⟩ := List.mem_map.mp part
    exact ih inner (Shape.mem_parts_iff.mp mem)

end SchemaDoc
