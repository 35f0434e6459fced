import SchemaDoc.Projection.Basic
import SchemaDoc.Proofs.Results
import SchemaDoc.Proofs.Schema.Parts

/-!
# How a projection goes through a shape

`Projection.shapeOf` projects the parts of a shape one after the other. Here its recursions over
fields, elements and members are told as lists of steps, and from that follows once and for all
where a failure of a shape comes from, and which failures of its parts it cannot survive. How
references are followed stays open.
-/
namespace SchemaDoc

namespace Trail

@[simp] theorem enter_visited (trail : Trail) (step : LocationStep) :
    (trail.enter step).visited = trail.visited := rfl

@[simp] theorem visit_visited (trail : Trail) (identity : Identity) :
    (trail.visit identity).visited = identity :: trail.visited := rfl

@[simp] theorem alternative_visited (trail : Trail) (alone : Bool) (place : Nat) :
    (trail.alternative alone place).visited = trail.visited := by
  cases alone <;> rfl

end Trail

@[simp] theorem Annotations.overlay_none (document : Members) :
    Annotations.none.overlay document = document := rfl

namespace Literal

/-- Only a number that is not finite has no JSON value. -/
theorem toJson?_eq_none {literal : Literal} (h : literal.toJson? = none) :
    ∃ x : Binary64, literal = .number x ∧ x.finite? = none := by
  cases literal with
  | number x => exact ⟨x, rfl, by simpa [toJson?] using h⟩
  | string text => cases h
  | boolean b => cases h
  | null => cases h

end Literal

namespace Alternatives

/-- The search for an enumeration fails only at a literal without a JSON value. -/
theorem literalValues_eq_error {location : Location} {scalar : Option String}
    {values : List Json} {members : List (Option Literal)} {error : ProjectionError}
    (h : literalValues location scalar values members = .error error) :
    ∃ literal, some literal ∈ members ∧ literal.toJson? = none := by
  induction members generalizing scalar values with
  | nil => cases h
  | cons member rest ih =>
    cases member with
    | none => cases h
    | some literal =>
      simp only [literalValues] at h
      split at h
      · split at h
        · next hvalue => exact ⟨literal, List.mem_cons_self, hvalue⟩
        · obtain ⟨other, hmem, hother⟩ := ih h
          exact ⟨other, List.mem_cons_of_mem _ hmem, hother⟩
      · cases h

/-- The members of an enumeration are literals with JSON values. -/
theorem literalValues_eq_some {location : Location} {scalar : Option String}
    {values : List Json} {members : List (Option Literal)} {found : String × List Json}
    (h : literalValues location scalar values members = .ok (some found)) :
    ∀ member ∈ members, ∃ literal value, member = some literal ∧ literal.toJson? = some value := by
  induction members generalizing scalar values with
  | nil => simp
  | cons member rest ih =>
    cases member with
    | none => cases h
    | some literal =>
      simp only [literalValues] at h
      split at h
      · split at h
        · cases h
        · next value hvalue =>
          intro other hmem
          rcases List.mem_cons.mp hmem with rfl | hmem
          · exact ⟨literal, value, rfl, hvalue⟩
          · exact ih h other hmem
      · cases h

theorem literalEnum_eq_error {location : Location} {members : List (Option Literal)}
    {error : ProjectionError} (h : literalEnum location members = .error error) :
    ∃ literal, some literal ∈ members ∧ literal.toJson? = none := by
  unfold literalEnum at h
  split at h
  · cases h
  · rcases bind_eq_error.mp h with h | ⟨found, -, h⟩
    · exact literalValues_eq_error h
    · exact absurd h pure_ne_error

theorem literalEnum_eq_some {location : Location} {members : List (Option Literal)}
    {document : Members} (h : literalEnum location members = .ok (some document)) :
    ∀ member ∈ members, ∃ literal value, member = some literal ∧ literal.toJson? = some value := by
  unfold literalEnum at h
  split at h
  · cases h
  · obtain ⟨found, hfound, h⟩ := bind_eq_ok.mp h
    cases found with
    | none => cases h
    | some found => exact literalValues_eq_some hfound

end Alternatives

namespace Projection

variable {follow : Trail → Reference Schema → Outcome} {inField : Bool} {trail : Trail}

/-! ## Lists of parts -/

theorem fieldsOf_eq_mapM (fields : List (Field Schema)) :
    fieldsOf follow trail fields = fields.mapM fun field => do
      return (field.name,
        Json.object (← node follow true (trail.enter (.property field.name)) field.node)) := by
  induction fields with
  | nil => rfl
  | cons field rest ih =>
    rw [List.mapM_cons, ← ih, fieldsOf, bind_assoc]
    simp only [pure_bind]

theorem elementsOf_eq_mapM (place : Nat) (elements : List (Element Schema)) :
    elementsOf follow trail place elements = (elements.zipIdx place).mapM fun (element, i) =>
      node follow false (trail.enter (.item i)) element.node := by
  induction elements generalizing place with
  | nil => rfl
  | cons element rest ih =>
    rw [List.zipIdx_cons, List.mapM_cons, ← ih, elementsOf]

theorem membersOf_eq_mapM (keep : Schema → Bool) (alone : Bool) (place : Nat)
    (members : List Schema) :
    membersOf follow keep trail alone place members =
      ((members.filter keep).zipIdx place).mapM fun (member, i) =>
        node follow false (trail.alternative alone i) member := by
  induction members generalizing place with
  | nil => rfl
  | cons member rest ih =>
    rw [membersOf]
    split
    · next hkeep =>
      rw [List.filter_cons_of_pos hkeep, List.zipIdx_cons, List.mapM_cons, ← ih]
    · next hkeep => rw [List.filter_cons_of_neg hkeep, ih]

theorem optional_eq_mapM (schema? : Option Schema) :
    optional follow trail schema? = schema?.mapM (node follow false trail) := by
  cases schema? with
  | none => rfl
  | some schema => rw [Option.mapM_some, optional, map_eq_pure_bind]

theorem node_eq (schema : Schema) :
    node follow inField trail schema = do
      let document ← shapeOf follow inField (trail.visit schema.identity) schema.shape
      return schema.notes.overlay document := by
  cases schema
  rfl

/-! ## Failures -/

theorem fails_node {schema : Schema}
    (h : Fails (shapeOf follow inField (trail.visit schema.identity) schema.shape)) :
    Fails (node follow inField trail schema) := by
  rw [node_eq]
  exact fails_bind_left h

theorem node_eq_error {schema : Schema} {error : ProjectionError}
    (h : node follow inField trail schema = .error error) :
    shapeOf follow inField (trail.visit schema.identity) schema.shape = .error error := by
  rw [node_eq] at h
  rcases bind_eq_error.mp h with h | ⟨document, -, h⟩
  · exact h
  · exact absurd h pure_ne_error

theorem ofUnion_of_no_literalEnum {location : Location} {literals : List (Option Literal)}
    {documents : Unit → Except ProjectionError (List Members)}
    (h : Alternatives.literalEnum location literals = .ok none) :
    ofUnion location literals documents = do return Alternatives.join (← documents ()) := by
  rw [ofUnion, h]
  rfl

theorem ofUnion_eq_error {location : Location} {literals : List (Option Literal)}
    {documents : Unit → Except ProjectionError (List Members)} {error : ProjectionError}
    (h : ofUnion location literals documents = .error error) :
    (∃ literal, some literal ∈ literals ∧ literal.toJson? = none) ∨
      documents () = .error error := by
  rcases bind_eq_error.mp h with h | ⟨found, -, h⟩
  · exact .inl (Alternatives.literalEnum_eq_error h)
  · cases found with
    | some document => exact absurd h pure_ne_error
    | none =>
      rcases bind_eq_error.mp h with h | ⟨all, -, h⟩
      · exact .inr h
      · exact absurd h pure_ne_error

theorem shape_eq_of_literal? {schema : Schema} {literal : Literal}
    (h : schema.literal? = some literal) : schema.shape = .literal literal := by
  unfold Schema.literal? at h
  split at h
  · next hshape => rw [hshape, Option.some.inj h]
  · cases h

/-- The literals of a union are among its members. -/
theorem exists_member_of_literal {members : List Schema} {literal : Literal}
    (h : some literal ∈ members.map Schema.literal?) :
    ∃ member ∈ members, member.shape = .literal literal := by
  obtain ⟨member, hmem, hliteral⟩ := List.mem_map.mp h
  exact ⟨member, hmem, shape_eq_of_literal? hliteral⟩

/-- A shape fails at a reference, in one of its parts, or at a number that is not finite, which is
the shape itself or a member. -/
theorem shapeOf_eq_error {shape : Shape Schema} {error : ProjectionError}
    (h : shapeOf follow inField trail shape = .error error) :
    (∃ reference, shape = .recursive reference ∧ follow trail reference = .error error) ∨
    (∃ inner, shape.Part inner ∧ ∃ inField' trail', trail'.visited = trail.visited ∧
      node follow inField' trail' inner = .error error) ∨
    (∃ x : Binary64, x.finite? = none ∧
      (shape = .literal (.number x) ∨
        ∃ inner, shape.Part inner ∧ inner.shape = .literal (.number x))) := by
  cases shape with
  | primitive primitive => cases h
  | hidden => cases h
  | literal literal =>
    simp only [shapeOf, ofLiteral] at h
    split at h
    · cases h
    · next hnone =>
      obtain ⟨x, rfl, hx⟩ := Literal.toJson?_eq_none hnone
      exact .inr (.inr ⟨x, hx, .inl rfl⟩)
  | struct fields index =>
    rw [shapeOf, fieldsOf_eq_mapM, optional_eq_mapM] at h
    rcases bind_eq_error.mp h with h | ⟨properties, -, h⟩
    · obtain ⟨field, hmem, h⟩ := mapM_eq_error h
      rcases bind_eq_error.mp h with h | ⟨document, -, h⟩
      · exact .inr (.inl ⟨field.node, .field hmem, true, _, Trail.enter_visited _ _, h⟩)
      · exact absurd h pure_ne_error
    · rcases bind_eq_error.mp h with hothers | ⟨others, -, h⟩
      · obtain ⟨inner, rfl, hinner⟩ := optionMapM_eq_error hothers
        exact .inr (.inl ⟨inner, .index, false, _, Trail.enter_visited _ _, hinner⟩)
      · exact absurd h pure_ne_error
  | tuple elements rest =>
    rw [shapeOf, elementsOf_eq_mapM, optional_eq_mapM] at h
    rcases bind_eq_error.mp h with hothers | ⟨others, -, h⟩
    · obtain ⟨inner, rfl, hinner⟩ := optionMapM_eq_error hothers
      exact .inr (.inl ⟨inner, .rest, false, _, Trail.enter_visited _ _, hinner⟩)
    · rcases bind_eq_error.mp h with h | ⟨documents, -, h⟩
      · obtain ⟨⟨element, i⟩, hmem, h⟩ := mapM_eq_error h
        have part : Shape.Part (.tuple elements rest) element.node :=
          .element (List.fst_mem_of_mem_zipIdx hmem)
        exact .inr (.inl ⟨element.node, part, false, _, Trail.enter_visited _ _, h⟩)
      · exact absurd h pure_ne_error
  | union members =>
    rw [shapeOf, membersOf_eq_mapM] at h
    rcases ofUnion_eq_error h with ⟨literal, hmem, hnone⟩ | h
    · obtain ⟨member, hcounted, hshape⟩ := exists_member_of_literal hmem
      obtain ⟨x, rfl, hx⟩ := Literal.toJson?_eq_none hnone
      exact .inr (.inr ⟨x, hx, .inr ⟨member, .member (List.mem_filter.mp hcounted).1, hshape⟩⟩)
    · obtain ⟨⟨member, i⟩, hmem, h⟩ := mapM_eq_error h
      have hcounted := (List.mem_filter.mp (List.fst_mem_of_mem_zipIdx hmem)).1
      exact .inr (.inl ⟨member, .member hcounted, false, _, Trail.alternative_visited _ _ _, h⟩)
  | refinement base constraints =>
    rw [shapeOf] at h
    rcases bind_eq_error.mp h with h | ⟨document, -, h⟩
    · exact .inr (.inl ⟨base, .base, false, _, rfl, h⟩)
    · exact absurd h pure_ne_error
  | recursive reference => exact .inl ⟨reference, rfl, h⟩

/-- Void is projected to the empty document, whatever its place. -/
theorem not_fails_node_of_isVoid {schema : Schema} (h : schema.isVoid = true) :
    ¬ Fails (node follow inField trail schema) := by
  have hshape : schema.shape = .primitive .void := by
    unfold Schema.isVoid at h
    split at h
    · assumption
    · cases h
  rw [node_eq, hshape]
  exact not_fails_ok _

theorem node_of_literal {schema : Schema} {literal : Literal} {value : Json}
    (h : schema.literal? = some literal) (hvalue : literal.toJson? = some value) :
    node follow inField trail schema =
      .ok (schema.notes.overlay (Alternatives.enumeration literal.scalarType [value])) := by
  rw [node_eq, shape_eq_of_literal? h, shapeOf, ofLiteral, hvalue]
  rfl

theorem not_fails_node_of_literal {schema : Schema} {literal : Literal} {value : Json}
    (h : schema.literal? = some literal) (hvalue : literal.toJson? = some value) :
    ¬ Fails (node follow inField trail schema) := by
  rw [node_of_literal h hvalue]
  exact not_fails_ok _

/-- A part that fails wherever it is met makes its shape fail. -/
theorem fails_shapeOf {shape : Shape Schema} {inner : Schema} (part : shape.Part inner)
    (failing : ∀ inField' trail', trail'.visited = trail.visited →
      Fails (node follow inField' trail' inner)) :
    Fails (shapeOf follow inField trail shape) := by
  cases part with
  | @field fields index field mem =>
    rw [shapeOf, fieldsOf_eq_mapM]
    exact fails_bind_left (fails_mapM mem (fails_bind_left (failing true _ rfl)))
  | index =>
    rw [shapeOf, optional_eq_mapM]
    exact fails_bind_right fun _ => fails_bind_left (fails_optionMapM (failing false _ rfl))
  | @element elements rest element mem =>
    obtain ⟨i, hi⟩ := List.mem_iff_getElem?.mp mem
    have placed := List.mk_mem_zipIdx_iff_getElem?.mpr hi
    rw [shapeOf, elementsOf_eq_mapM]
    exact fails_bind_right fun _ => fails_bind_left (fails_mapM placed (failing false _ rfl))
  | rest =>
    rw [shapeOf, optional_eq_mapM]
    exact fails_bind_left (fails_optionMapM (failing false _ rfl))
  | @member members member mem =>
    -- Void members are left out in a field, but they never fail.
    have counted : counts inField members inner = true := by
      cases hvoid : inner.isVoid with
      | true => exact absurd (failing false trail rfl) (not_fails_node_of_isVoid hvoid)
      | false => simp [counts, hvoid]
    have kept : inner ∈ members.filter (counts inField members) :=
      List.mem_filter.mpr ⟨mem, counted⟩
    obtain ⟨i, hi⟩ := List.mem_iff_getElem?.mp kept
    have placed := List.mk_mem_zipIdx_iff_getElem?.mpr hi
    rw [shapeOf, membersOf_eq_mapM]
    cases henum : Alternatives.literalEnum trail.location
        ((members.filter (counts inField members)).map Schema.literal?) with
    | error error => exact ⟨error, by simp only [ofUnion, henum]; rfl⟩
    | ok found =>
      cases found with
      | some document =>
        obtain ⟨literal, value, hliteral, hvalue⟩ :=
          Alternatives.literalEnum_eq_some henum _ (List.mem_map_of_mem kept)
        exact absurd (failing false trail rfl) (not_fails_node_of_literal hliteral hvalue)
      | none =>
        rw [ofUnion_of_no_literalEnum henum]
        exact fails_bind_left
          (fails_mapM placed (failing false _ (Trail.alternative_visited _ _ _)))
  | base =>
    rw [shapeOf]
    exact fails_bind_left (failing false _ rfl)

end Projection

/-- A document with the name of the language it is written in, if the options ask for it. -/
def ProjectionOptions.headed (options : ProjectionOptions) (document : Members) : Members :=
  if options.metaSchema then
    Members.putAll [("$schema", .string ProjectionOptions.metaSchemaUri)] document
  else document

namespace Graph

theorem project_eq (graph : Graph) (options : ProjectionOptions) :
    graph.project options = do
      return options.headed
        (← Projection.document graph.bindings options.maxDepth graph.root) := by
  unfold project
  refine congrArg (_ >>= ·) (funext fun document => ?_)
  cases h : options.metaSchema <;> simp [ProjectionOptions.headed, h]

theorem project_eq_error_iff (graph : Graph) (options : ProjectionOptions)
    (error : ProjectionError) :
    graph.project options = .error error ↔
      Projection.document graph.bindings options.maxDepth graph.root = .error error := by
  rw [project_eq, bind_eq_error]
  constructor
  · rintro (h | ⟨document, -, h⟩)
    · exact h
    · exact absurd h pure_ne_error
  · exact .inl

end Graph

end SchemaDoc
