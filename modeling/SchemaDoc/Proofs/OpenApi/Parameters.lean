import SchemaDoc.Proofs.OpenApi.Merging
import SchemaDoc.Proofs.Projection.Composition
import SchemaDoc.Proofs.Projection.NamedOnce

/-!
# Parameters of a query

The parameters of an operation are read off the document of its query. Where the query is a struct
under references and refinements, everything on the way to the struct writes over its document, but
not over the properties and the names of those that must be there. So there is one parameter for
each field of the struct, in the order of the fields.
-/
namespace SchemaDoc

/-! ## Wrapped schemas -/

/-- The schema is another one under some references that can be resolved and any refinements that
leave its properties alone. On the way no node is met again: above the schema are the given nodes,
and above the other one all that are passed. -/
inductive Schema.Wraps (bindings : Bindings) (inner : Schema) (below : List Identity) :
    Nat → List Identity → Schema → Prop
  | bare : Wraps bindings inner below 0 below inner
  | refinement {n : Nat} {above : List Identity} {identity : Identity} {base : Schema}
      {constraints : List Constraint} {notes : Annotations} :
      (∀ constraint ∈ constraints, ∀ hint ∈ constraint.hints,
        hint.1 ∉ ["properties", "required"]) →
      Wraps bindings inner below n (identity :: above) base →
      Wraps bindings inner below n above (.node identity (.refinement base constraints) notes)
  | reference {n : Nat} {above : List Identity} {identity : Identity}
      {reference : Reference Schema} {target : Schema} {notes : Annotations} :
      reference.resolve bindings = .ok target →
      (target.identity = .unshared ∨ target.identity ∉ identity :: above) →
      Wraps bindings inner below n (identity :: above) target →
      Wraps bindings inner below (n + 1) above (.node identity (.recursive reference) notes)

/-- Every document is changed into one with the same properties, of which the same must be there. -/
def Members.KeepsProperties (edit : Members → Members) : Prop :=
  ∀ document : Members, ∀ name ∈ ["properties", "required"],
    (edit document).get? name = document.get? name

namespace Members.KeepsProperties

theorem overlay (notes : Annotations) : KeepsProperties notes.overlay := by
  intro document name mem
  have other : name ∉ ["title", "description", "examples"] := by
    intro note
    simp only [List.mem_cons, List.not_mem_nil, or_false] at mem note
    rcases mem with rfl | rfl <;> simp at note
  exact notes.get?_overlay document other

theorem applyAll {constraints : List Constraint}
    (hints : ∀ constraint ∈ constraints, ∀ hint ∈ constraint.hints,
      hint.1 ∉ ["properties", "required"]) :
    KeepsProperties (Constraint.applyAll · constraints) := by
  intro document name mem
  apply Constraint.get?_applyAll_of_ne
  · intro constraint hconstraint hint hhint same
    exact hints constraint hconstraint hint hhint (same ▸ mem)
  · intro bound
    simp only [List.mem_cons, List.not_mem_nil, or_false] at mem bound
    rcases mem with rfl | rfl <;> simp at bound

theorem comp {edit edit' : Members → Members} (h : KeepsProperties edit)
    (h' : KeepsProperties edit') : KeepsProperties (edit ∘ edit') :=
  fun document name mem => (h (edit' document) name mem).trans (h' document name mem)

end Members.KeepsProperties

namespace Schema.Wraps

variable {bindings : Bindings} {inner schema : Schema} {above below : List Identity} {n : Nat}

/-- The document is that of the schema inside, below the nodes that are passed and with fewer
references to follow, but for members that are written over it. -/
theorem exists_edit (h : Wraps bindings inner below n above schema) :
    ∃ edit, Members.KeepsProperties edit ∧ ∀ cap remaining location,
      Projection.node (Projection.follow bindings cap (remaining + n)) false ⟨location, above⟩
          schema =
        (Projection.node (Projection.follow bindings cap remaining) false ⟨location, below⟩
          inner).map edit := by
  induction h with
  | bare =>
    refine ⟨id, fun _ _ _ => rfl, fun cap remaining location => ?_⟩
    rw [Except.map_id]
    rfl
  | @refinement n above identity base constraints notes hints _ ih =>
    obtain ⟨edit, keeps, same⟩ := ih
    refine ⟨(notes.overlay ∘ (Constraint.applyAll · constraints)) ∘ edit,
      ((Members.KeepsProperties.overlay notes).comp (.applyAll hints)).comp keeps,
      fun cap remaining location => ?_⟩
    rw [Projection.node, Projection.shapeOf, Trail.visit, same]
    cases Projection.node _ false ⟨location, below⟩ inner <;> rfl
  | @reference n above identity reference target notes resolved fresh _ ih =>
    obtain ⟨edit, keeps, same⟩ := ih
    refine ⟨notes.overlay ∘ edit, (Members.KeepsProperties.overlay notes).comp keeps,
      fun cap remaining location => ?_⟩
    have unseen : Trail.contains ⟨location, identity :: above⟩ target.identity = false := by
      rcases fresh with unshared | fresh
      · simp [Trail.contains, unshared]
      · simp [Trail.contains, fresh]
    rw [Projection.node, Projection.shapeOf, Trail.visit, ← Nat.add_assoc, Projection.follow,
      resolved]
    simp only [unseen, Bool.false_eq_true, if_false, same]
    cases Projection.node _ false ⟨location, below⟩ inner <;> rfl

end Schema.Wraps

/-- A graph has a document exactly if the schema inside has one, with the same properties. -/
theorem Graph.project_of_wraps {graph : Graph} {options : ProjectionOptions}
    {inner : Schema} {below : List Identity} {n : Nat}
    (wraps : Schema.Wraps graph.bindings inner below n [] graph.root)
    (within : n ≤ options.maxDepth) :
    ((∃ document, graph.project options = .ok document) ↔ ∃ made,
      Projection.node (Projection.follow graph.bindings options.maxDepth (options.maxDepth - n))
        false ⟨[], below⟩ inner = .ok made) ∧
    ∀ document, graph.project options = .ok document → ∃ made,
      Projection.node (Projection.follow graph.bindings options.maxDepth (options.maxDepth - n))
        false ⟨[], below⟩ inner = .ok made ∧
      ∀ name ∈ ["properties", "required"], document.get? name = made.get? name := by
  obtain ⟨edit, keeps, same⟩ := wraps.exists_edit
  have started := same options.maxDepth (options.maxDepth - n) []
  rw [Nat.sub_add_cancel within] at started
  rw [project_eq]
  simp only [bind_eq_ok, Projection.document, Trail.start]
  constructor
  · constructor
    · rintro ⟨document, root, hroot, -⟩
      obtain ⟨made, hmade, -⟩ := map_eq_ok.mp (started.symm.trans hroot)
      exact ⟨made, hmade⟩
    · rintro ⟨made, hmade⟩
      exact ⟨_, edit made, started.trans (map_eq_ok.mpr ⟨made, hmade, rfl⟩), rfl⟩
  · rintro document ⟨root, hroot, made⟩
    cases made
    -- The heading stands before the document, which would win over it.
    have nodup := Projection.nodup_names_of_node hroot
    obtain ⟨made, hmade, rfl⟩ := map_eq_ok.mp (started.symm.trans hroot)
    refine ⟨made, hmade, fun name mem => ?_⟩
    have other : name ≠ "$schema" := ne_of_mem_of_not_mem mem (by decide)
    rw [options.get?_headed nodup other, keeps made name mem]

namespace OpenApi

/-! ## Parameters -/

/-- The parameter is that of a field, with the schema that the properties have for it. -/
structure Describes (properties : Members) (field : Field Schema) (parameter : Json) : Prop where
  name : parameter.get? "name" = some (.string field.name)
  place : parameter.get? "in" = some (.string "query")
  required : parameter.get? "required" = some (.bool !field.optional)
  schema : ∃ value, properties.get? field.name = some value ∧
    parameter.get? "schema" = some value

theorem queryParameters_eq {document properties : Members} {required : List String}
    (hproperties : document.get? "properties" = some (.object properties))
    (hrequired : document.get? "required" = some (.array (required.map Json.string))) :
    queryParameters document = properties.map fun (name, schema) =>
      .object [("name", .string name), ("in", .string "query"),
        ("required", .bool (name ∈ required)), ("schema", schema)] := by
  have names : (required.map Json.string).filterMap Json.string? = required := by
    rw [List.filterMap_map]
    exact List.filterMap_some
  rw [queryParameters, hproperties, hrequired]
  simp only [Option.bind_some, Json.members?, Json.items?, Option.getD_some, names]

/-- From a document that tells of all fields, there is a parameter for each of them. -/
theorem describes_queryParameters {fields : List (Field Schema)}
    {made : Field Schema → Members → Prop} {document : Members}
    (nodup : (fields.map Field.name).Nodup)
    (shown : Projection.FieldsShown fields made document) :
    ∃ properties : Members, document.get? "properties" = some (.object properties) ∧
      properties.names = fields.map Field.name ∧
      List.Forall₂ (Describes properties) fields (queryParameters document) := by
  obtain ⟨properties, hproperties, names⟩ := shown.order
  obtain ⟨required, hrequired, -, among⟩ := shown.required
  have distinct : properties.names.Nodup := names ▸ nodup
  have inStep : List.Forall₂ (fun field property => field.name = property.1) fields properties := by
    rw [Members.names, ← List.forall₂_eq_eq_eq, List.forall₂_map_left_iff,
      List.forall₂_map_right_iff] at names
    exact names.flip.imp fun _ _ same => same.symm
  refine ⟨properties, hproperties, names, ?_⟩
  rw [queryParameters_eq hproperties hrequired, List.forall₂_map_right_iff]
  refine (forall₂_mem_both inStep).imp ?_
  rintro field ⟨name, schema⟩ ⟨⟨hfield, rfl⟩, hproperty⟩
  constructor
  · rfl
  · rfl
  · have same : decide (field.name ∈ required) = !field.optional := by
      rw [Bool.eq_iff_iff, decide_eq_true_iff, among field hfield]
      simp
    exact congrArg (fun b => some (Json.bool b)) same
  · exact ⟨schema, Members.get?_of_mem distinct hproperty, rfl⟩

theorem get?_operationOf_parameters (contract : Contract) (query body response : Option Members) :
    (operationOf contract query body response).get? "parameters" =
      query.map fun document => .array (queryParameters document) := by
  have tags : Members.get? (if contract.tags.isEmpty then []
      else [("tags", .array (contract.tags.map Json.string))]) "parameters" = none := by
    split <;> rfl
  have responses : Members.get? [("responses", .object (responses contract response))]
      "parameters" = none := rfl
  rw [operationOf]
  simp only [Json.get?, Json.members?, Option.bind_some, Members.get?_append, tags, responses,
    Members.get?_ofOption_of_ne (by decide : "parameters" ≠ "summary"),
    Members.get?_ofOption_of_ne (by decide : "parameters" ≠ "requestBody"), Option.none_or,
    Option.or_none]
  cases query <;> rfl

theorem Describes.nodup_names {properties : Members} {fields : List (Field Schema)}
    {parameters : List Json} (nodup : (fields.map Field.name).Nodup)
    (described : List.Forall₂ (Describes properties) fields parameters) :
    (parameters.map (·.get? "name")).Nodup := by
  have names : parameters.map (·.get? "name") =
      (fields.map Field.name).map fun name => some (Json.string name) := by
    rw [List.map_map]
    exact map_eq_of_forall₂ (fun _ _ h => h.name) described
  rw [names]
  exact nodup.map fun _ _ same => Json.string.inj (Option.some.inj same)

/-- Where the query of a route is a struct under references and refinements that leave its
properties alone, it has a document exactly if the fields and the other members have one, and there
is an operation exactly if all schemas of the route have documents. The operation has a parameter
for each field, in order: no two of one name, required unless the field may be absent, and with the
schema of that property of the query. -/
theorem parameters_mirror_query (options : ProjectionOptions) (contract : Contract) {graph : Graph}
    {fields : List (Field Schema)} {index : Option Schema} {identity : Identity}
    {notes : Annotations} {below : List Identity} {n : Nat} (query : contract.query = some graph)
    (wraps : Schema.Wraps graph.bindings (.node identity (.struct fields index) notes) below n []
      graph.root)
    (within : n ≤ options.maxDepth) (nodup : (fields.map Field.name).Nodup) :
    ((∃ document, graph.project options = .ok document) ↔
      (∀ field ∈ fields, ∃ property, Projection.node (Projection.follow graph.bindings
          options.maxDepth (options.maxDepth - n)) true ⟨[], identity :: below⟩ field.node =
        .ok property) ∧
      ∀ inner, index = some inner → ∃ others, Projection.node (Projection.follow graph.bindings
          options.maxDepth (options.maxDepth - n)) false ⟨[], identity :: below⟩ inner =
        .ok others) ∧
    ((∃ made, operation options contract = .ok made) ↔
      ∀ schema ∈ contract.graphs, ∃ document, schema.project options = .ok document) ∧
    ∀ made, operation options contract = .ok made →
      ∃ (document properties : Members) (parameters : List Json),
      graph.project options = .ok document ∧
      document.get? "properties" = some (.object properties) ∧
      properties.names = fields.map Field.name ∧
      made.get? "parameters" = some (.array parameters) ∧
      (parameters.map (·.get? "name")).Nodup ∧
      List.Forall₂ (Describes properties) fields parameters := by
  obtain ⟨exist, same⟩ := Graph.project_of_wraps wraps within
  refine ⟨exist.trans (Projection.exists_node_struct_iff identity notes),
    (sameErrors_operation options contract).exists_ok_iff.trans exists_mapM_eq_ok_iff,
    fun made h => ?_⟩
  obtain ⟨projectedQuery, hquery, h⟩ := bind_eq_ok.mp h
  obtain ⟨body, -, h⟩ := bind_eq_ok.mp h
  obtain ⟨response, -, h⟩ := bind_eq_ok.mp h
  cases h
  rw [query] at hquery
  obtain ⟨document, hdocument, hquery⟩ := bind_eq_ok.mp hquery
  cases hquery
  obtain ⟨inner, hinner, kept⟩ := same document hdocument
  obtain ⟨properties, hproperties, names, described⟩ := describes_queryParameters nodup
    ((Projection.fieldsShown_of_node nodup hinner).of_same kept)
  refine ⟨document, properties, queryParameters document, hdocument, hproperties, names, ?_,
    Describes.nodup_names nodup described, described⟩
  rw [get?_operationOf_parameters]
  rfl

/-! ## A search -/

def searchText : Schema := .make (.step 1) (.primitive .string)

def searchFields : List (Field Schema) :=
  [⟨"text", searchText, false⟩, ⟨"", .optionalOf (.step 2) searchText, true⟩,
    ⟨"required", searchText, false⟩]

/-- A search that has some member, through a copy of the struct. -/
def narrowedSearch : Schema :=
  .refine (.step 4) (.make (.step 5) (.recursive (.copyOf "search")))
    [.single "minProperties" "minProperties" (.ofNat 1), .minLength 2]

def searchGraph : Graph where
  bindings :=
    [("search", .make (.step 3) (.struct searchFields none)), ("narrowed", narrowedSearch)]
  root := .node (.step 6) (.recursive (.slot "narrowed")) ⟨some "Search", none, [.null]⟩

def searching : Contract where
  summary := none
  tags := []
  query := some searchGraph
  body := none
  response := some errorBodyGraph

theorem wraps_searchGraph : Schema.Wraps searchGraph.bindings
    (.node .unshared (.struct searchFields none) .none) [.step 5, .step 4, .step 6] 2 []
    searchGraph.root :=
  .reference rfl (.inr (by decide)) (.refinement (by decide) (.reference rfl (.inl rfl) .bare))

theorem parameters_mirror_query_searching :
    ∃ (made : Json) (properties : Members) (parameters : List Json),
      operation ⟨2, true⟩ searching = .ok made ∧
      made.get? "parameters" = some (.array parameters) ∧
      (parameters.map (·.get? "name")).Nodup ∧
      List.Forall₂ (Describes properties) searchFields parameters := by
  obtain ⟨-, -, mirrored⟩ := parameters_mirror_query ⟨2, true⟩ searching rfl wraps_searchGraph
    (by decide) (by decide)
  obtain ⟨_, properties, parameters, -, -, -, found, nodup, described⟩ := mirrored _ rfl
  exact ⟨_, properties, parameters, rfl, found, nodup, described⟩

end OpenApi

end SchemaDoc
