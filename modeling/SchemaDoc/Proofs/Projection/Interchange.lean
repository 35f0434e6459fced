import SchemaDoc.Proofs.Projection.Congruence
import SchemaDoc.Proofs.Projection.Traversal

/-!
# Schemas that project alike

Of the annotations of a node a projection shows what is published, and it makes no other use of
them. `Schema.Agrees` says of two schemas that no projection can tell them apart wherever they
stand. It passes from parts to wholes, and from the bindings and root of a graph to its projection.
`Schema.Matches` asks less: two schemas have the same role in two projections, where each has its
own way to follow references and its own nodes on the trail.
-/
namespace SchemaDoc

/-- Two schemas with the same role in every projection: as nodes on the trail, as members of a
union, and in their documents. -/
structure Schema.Agrees (schema other : Schema) : Prop where
  identity : other.identity = schema.identity
  isVoid : other.isVoid = schema.isVoid
  literal? : other.literal? = schema.literal?
  overlay : ∀ document, other.notes.overlay document = schema.notes.overlay document
  shapeOf : ∀ follow inField trail, Projection.shapeOf follow inField trail other.shape =
    Projection.shapeOf follow inField trail schema.shape

namespace Schema.Agrees

variable {schema other : Schema}

theorem node (h : schema.Agrees other) (follow : Trail → Reference Schema → Outcome)
    (inField : Bool) (trail : Trail) :
    Projection.node follow inField trail other = Projection.node follow inField trail schema := by
  rw [Projection.node_eq, Projection.node_eq, h.identity, h.shapeOf]
  simp only [h.overlay]

theorem copy (h : schema.Agrees other) (identity : Identity) :
    (schema.copy identity).Agrees (other.copy identity) := by
  cases schema
  cases other
  exact { h with identity := rfl }

end Schema.Agrees

/-- Two shapes of one kind whose parts are related. -/
inductive Shape.Rel {σ τ : Type} (R : σ → τ → Prop) : Shape σ → Shape τ → Prop
  | primitive (primitive : Primitive) : Rel R (.primitive primitive) (.primitive primitive)
  | literal (literal : Literal) : Rel R (.literal literal) (.literal literal)
  | struct {fields : List (Field σ)} {fields' : List (Field τ)} {index : Option σ}
      {index' : Option τ} :
      List.Forall₂ (fun field field' => R field.node field'.node ∧ field'.name = field.name ∧
        field'.optional = field.optional) fields fields' →
      Option.Rel R index index' → Rel R (.struct fields index) (.struct fields' index')
  | tuple {elements : List (Element σ)} {elements' : List (Element τ)} {rest : Option σ}
      {rest' : Option τ} :
      List.Forall₂ (fun element element' => R element.node element'.node ∧
        element'.optional = element.optional) elements elements' →
      Option.Rel R rest rest' → Rel R (.tuple elements rest) (.tuple elements' rest')
  | union {members : List σ} {members' : List τ} : List.Forall₂ R members members' →
      Rel R (.union members) (.union members')
  | refinement {base : σ} {base' : τ} (constraints : List Constraint) : R base base' →
      Rel R (.refinement base constraints) (.refinement base' constraints)
  | slot (name : String) : Rel R (.recursive (.slot name)) (.recursive (.slot name))
  | hidden : Rel R .hidden .hidden

theorem Shape.Rel.imp {σ τ : Type} {R S : σ → τ → Prop} {shape : Shape σ} {shape' : Shape τ}
    (h : shape.Rel R shape') (himp : ∀ x y, R x y → S x y) : shape.Rel S shape' := by
  cases h with
  | primitive primitive => exact .primitive primitive
  | literal literal => exact .literal literal
  | struct hfields hindex =>
    exact .struct (hfields.imp fun _ _ h => ⟨himp _ _ h.1, h.2⟩) (optionRel_imp himp hindex)
  | tuple helements hrest =>
    exact .tuple (helements.imp fun _ _ h => ⟨himp _ _ h.1, h.2⟩) (optionRel_imp himp hrest)
  | union hmembers => exact .union (hmembers.imp himp)
  | refinement constraints h => exact .refinement constraints (himp _ _ h)
  | slot name => exact .slot name
  | hidden => exact .hidden

/-- Two schemas with the same role in two projections, below nodes that each of them has visited:
as members of a union, and in the documents that are made of them at a location. -/
structure Schema.Matches (follow follow' : Trail → Reference Schema → Outcome)
    (visited visited' : List Identity) (schema other : Schema) : Prop where
  isVoid : other.isVoid = schema.isVoid
  literal? : other.literal? = schema.literal?
  node : ∀ inField location, Projection.node follow' inField ⟨location, visited'⟩ other =
    Projection.node follow inField ⟨location, visited⟩ schema

theorem Schema.Agrees.matches {schema other : Schema} (h : schema.Agrees other)
    (follow : Trail → Reference Schema → Outcome) (visited : List Identity) :
    schema.Matches follow follow visited visited other where
  isVoid := h.isVoid
  literal? := h.literal?
  node := fun inField location => h.node follow inField ⟨location, visited⟩

namespace Projection

variable {follow follow' : Trail → Reference Schema → Outcome} {visited visited' : List Identity}
  {inField : Bool} {location : Location}

theorem optional_eq_of_matches {schema? other? : Option Schema}
    (h : Option.Rel (Schema.Matches follow follow' visited visited') schema? other?) :
    optional follow' ⟨location, visited'⟩ other? = optional follow ⟨location, visited⟩ schema? := by
  cases h with
  | none => rfl
  | some same => rw [optional, optional, same.node]

theorem fieldsOf_eq_of_matches {fields fields' : List (Field Schema)}
    (h : List.Forall₂ (fun field field' =>
      field.node.Matches follow follow' visited visited' field'.node ∧
        field'.name = field.name ∧ field'.optional = field.optional) fields fields') :
    fieldsOf follow' ⟨location, visited'⟩ fields' = fieldsOf follow ⟨location, visited⟩ fields := by
  rw [fieldsOf_eq_mapM, fieldsOf_eq_mapM]
  refine mapM_eq_of_forall₂ (h.imp ?_)
  rintro field field' ⟨same, name, -⟩
  simp only [Trail.enter, name, same.node]

theorem elementsOf_eq_of_matches {elements elements' : List (Element Schema)}
    (h : List.Forall₂ (fun element element' =>
      element.node.Matches follow follow' visited visited' element'.node ∧
        element'.optional = element.optional) elements elements') :
    elementsOf follow' ⟨location, visited'⟩ 0 elements' =
      elementsOf follow ⟨location, visited⟩ 0 elements := by
  rw [elementsOf_eq_mapM, elementsOf_eq_mapM]
  refine mapM_eq_of_forall₂ ((forall₂_zipIdx_both h 0).imp ?_)
  rintro ⟨element, i⟩ ⟨element', j⟩ ⟨⟨same, -⟩, place⟩
  simp only at same place
  simp only [Trail.enter, place, same.node]

/-- Of members that match, those in the same places count. -/
theorem filter_counts_matches {members members' : List Schema}
    (h : List.Forall₂ (Schema.Matches follow follow' visited visited') members members') :
    List.Forall₂ (Schema.Matches follow follow' visited visited')
      (members.filter (counts inField members)) (members'.filter (counts inField members')) := by
  rw [filter_counts, filter_counts]
  exact Alternatives.present_rel (fun _ _ same => same.isVoid) h inField

theorem membersOf_eq_of_matches {members members' : List Schema}
    (h : List.Forall₂ (Schema.Matches follow follow' visited visited') members members')
    (alone : Bool) :
    membersOf follow' (counts inField members') ⟨location, visited'⟩ alone 0 members' =
      membersOf follow (counts inField members) ⟨location, visited⟩ alone 0 members := by
  rw [membersOf_eq_mapM, membersOf_eq_mapM]
  refine mapM_eq_of_forall₂ ((forall₂_zipIdx_both (filter_counts_matches h) 0).imp ?_)
  rintro ⟨member, i⟩ ⟨member', j⟩ ⟨same, place⟩
  simp only at same place
  cases alone <;> simp [Trail.alternative, Trail.enter, place, same.node]

/-- Shapes whose parts match project alike, if the references among them do. -/
theorem shapeOf_eq_of_rel {shape shape' : Shape Schema}
    (h : shape.Rel (Schema.Matches follow follow' visited visited') shape')
    (references : ∀ name, shape = .recursive (.slot name) →
      follow' ⟨location, visited'⟩ (.slot name) = follow ⟨location, visited⟩ (.slot name)) :
    shapeOf follow' inField ⟨location, visited'⟩ shape' =
      shapeOf follow inField ⟨location, visited⟩ shape := by
  cases h with
  | primitive => rfl
  | literal => rfl
  | slot name => exact references name rfl
  | hidden => rfl
  | struct hfields hindex =>
    simp only [shapeOf, Trail.enter, fieldsOf_eq_of_matches hfields, optional_eq_of_matches hindex,
      ofStruct_congr (hfields.imp fun _ _ h => h.2)]
  | @tuple elements elements' rest rest' helements hrest =>
    have hempty : elements'.isEmpty = elements.isEmpty := by
      cases helements <;> rfl
    simp only [shapeOf, Trail.enter, hempty, elementsOf_eq_of_matches helements,
      optional_eq_of_matches hrest, Sequence.document_congr (helements.imp fun _ _ h => h.2)]
  | @union members members' hmembers =>
    have present : List.Forall₂ (Schema.Matches follow follow' visited visited')
        (members.filter (counts inField members)) (members'.filter (counts inField members')) :=
      filter_counts_matches hmembers
    have literals : (members'.filter (counts inField members')).map Schema.literal? =
        (members.filter (counts inField members)).map Schema.literal? :=
      map_eq_of_forall₂ (fun _ _ same => same.literal?) present
    simp only [shapeOf, literals, membersOf_eq_of_matches hmembers, ← present.length_eq]
  | refinement constraints same => rw [shapeOf, shapeOf, same.node]

end Projection

theorem Schema.agrees_of_rel {identity : Identity} {shape shape' : Shape Schema}
    {notes notes' : Annotations} (h : shape.Rel Schema.Agrees shape')
    (overlay : ∀ document, notes'.overlay document = notes.overlay document) :
    (Schema.node identity shape notes).Agrees (.node identity shape' notes') where
  identity := rfl
  isVoid := by cases h <;> rfl
  literal? := by cases h <;> rfl
  overlay := overlay
  shapeOf := fun follow _ trail => Projection.shapeOf_eq_of_rel
    (h.imp fun _ _ agrees => agrees.matches follow trail.visited) fun _ _ => rfl

/-! ## Graphs -/

/-- The same slots are bound, to nodes that project alike. -/
def Bindings.Agree (bindings others : Bindings) : Prop :=
  List.Forall₂ (fun bound bound' => bound'.1 = bound.1 ∧ bound.2.Agrees bound'.2) bindings others

namespace Bindings.Agree

variable {bindings others : Bindings}

theorem lookup (h : bindings.Agree others) (name : String) :
    (bindings.lookup name = none ∧ others.lookup name = none) ∨
    ∃ target target', bindings.lookup name = some target ∧ others.lookup name = some target' ∧
      target.Agrees target' := by
  induction h with
  | nil => exact .inl ⟨rfl, rfl⟩
  | @cons bound bound' _ _ hfirst _ ih =>
    obtain ⟨slot, schema⟩ := bound
    obtain ⟨slot', schema'⟩ := bound'
    obtain ⟨rfl, agrees⟩ : slot' = slot ∧ schema.Agrees schema' := hfirst
    rw [List.lookup_cons, List.lookup_cons]
    cases name == slot' with
    | true => exact .inr ⟨schema, schema', rfl, rfl, agrees⟩
    | false => exact ih

/-- References lead to nodes that project alike, or nowhere for the same reason. -/
theorem resolve (h : bindings.Agree others) (reference : Reference Schema) :
    (∃ error, reference.resolve bindings = .error error ∧
      reference.resolve others = .error error) ∨
    ∃ target target', reference.resolve bindings = .ok target ∧
      reference.resolve others = .ok target' ∧ target.Agrees target' := by
  cases reference with
  | slot name =>
    rcases h.lookup name with ⟨hone, hother⟩ | ⟨target, target', hone, hother, agrees⟩
    · exact .inl ⟨.unset name, by simp [Reference.resolve, hone], by simp [Reference.resolve, hother]⟩
    · exact .inr ⟨target, target', by simp [Reference.resolve, hone],
        by simp [Reference.resolve, hother], agrees⟩
  | copyOf name =>
    rcases h.lookup name with ⟨hone, hother⟩ | ⟨target, target', hone, hother, agrees⟩
    · exact .inl ⟨.unset name, by simp [Reference.resolve, hone], by simp [Reference.resolve, hother]⟩
    · exact .inr ⟨target.copy .unshared, target'.copy .unshared, by simp [Reference.resolve, hone],
        by simp [Reference.resolve, hother], agrees.copy .unshared⟩
  | node target =>
    exact .inr ⟨target, target, rfl, rfl, ⟨rfl, rfl, rfl, fun _ => rfl, fun _ _ _ => rfl⟩⟩
  | failing message => exact .inl ⟨_, rfl, rfl⟩

theorem follow_eq (h : bindings.Agree others) (cap remaining : Nat) :
    Projection.follow others cap remaining = Projection.follow bindings cap remaining := by
  induction remaining with
  | zero => rfl
  | succ remaining ih =>
    funext trail reference
    rcases h.resolve reference with ⟨error, hone, hother⟩ | ⟨target, target', hone, hother, agrees⟩
    · simp only [Projection.follow, hone, hother]
    · simp only [Projection.follow, hone, hother, agrees.identity, agrees.node, ih]

end Bindings.Agree

/-- Graphs project alike if their bindings and roots do. -/
theorem Graph.project_eq_of_agree {graph other : Graph}
    (hbindings : graph.bindings.Agree other.bindings) (hroot : graph.root.Agrees other.root)
    (options : ProjectionOptions) : other.project options = graph.project options := by
  rw [project_eq, project_eq, Projection.document, Projection.document, hbindings.follow_eq,
    hroot.node]

end SchemaDoc
