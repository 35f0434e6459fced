import SchemaDoc.Proofs.Json.Pointer
import SchemaDoc.Proofs.OpenApi.Merging

/-!
# References to components

The operations of routes and the component schemas of a document are written apart. They agree
nevertheless: where an operation can reject its input, the reference in that response leads to the
schema of error bodies, whatever other documents have under the same names. The other components
are those of the last document that has them.
-/
namespace SchemaDoc.OpenApi

/-- The component schema of a name in a document. -/
def component? (document : Json) (name : String) : Option Json :=
  ((document.get? "components").bind (·.get? "schemas")).bind (·.get? name)

/-- The component schema of a name in the last of some documents that has one. -/
def lastComponent? (documents : List Json) (name : String) : Option Json :=
  documents.reverse.findSome? (component? · name)

/-- The response of an operation to rejected input. -/
def rejection? (operation : Json) : Option Json := operation.resolve? ["responses", "400"]

/-- The schema of the content of a response refers to the text of a pointer. -/
def PointsTo (response : Json) (pointer : String) : Prop :=
  response.resolve? ["content", "application/json", "schema", "$ref"] = some (.string pointer)

/-- The references of the routes in a document, and the components they refer to: an operation
rejects input exactly if it takes some, and the pointer in that response leads to the schema of
error bodies. Every component with another name is that of the last other document with it. There
are components unless no route takes input and no other document has any. -/
structure Builder.Refers (builder : Builder) (document : Json) : Prop where
  rejects : ∀ path key route, lastRoute? builder.routes path key = some route →
    ∃ operation, cell? document path key = some operation ∧
      ((rejection? operation).isSome ↔
        route.contract.query.isSome ∨ route.contract.body.isSome)
  resolves : ∀ path key route operation response,
    lastRoute? builder.routes path key = some route →
    cell? document path key = some operation → rejection? operation = some response →
    ∃ pointer tokens body, PointsTo response pointer ∧
      Location.readTokens? pointer = some tokens ∧
      errorBodyGraph.project builder.options = .ok body ∧
      document.resolve? tokens = some (.object body)
  others : ∀ name, name ≠ errorBodyComponent →
    component? document name = lastComponent? builder.external name
  bare : document.get? "components" = none ↔
    (∀ route ∈ builder.routes, route.contract.query = none ∧ route.contract.body = none) ∧
    ∀ other ∈ builder.external, ∀ name, component? other name = none

/-! ## Operations -/

section

variable {options : ProjectionOptions} {contract : Contract} {value : Json}

theorem takesInput_iff :
    contract.takesInput = true ↔ contract.query.isSome ∨ contract.body.isSome := by
  simp [Contract.takesInput]

theorem get?_responses_400 (contract : Contract) (response : Option Members) :
    Members.get? (responses contract response) "400" =
      if contract.takesInput then some rejectedResponse else none := by
  cases response <;> cases input : contract.takesInput <;>
    simp [responses, input, Members.get?, List.lookup_cons]

theorem get?_operationOf_responses (contract : Contract) (query body response : Option Members) :
    (operationOf contract query body response).get? "responses" =
      some (.object (responses contract response)) := by
  have tags : Members.get? (if contract.tags.isEmpty then []
      else [("tags", .array (contract.tags.map Json.string))]) "responses" = none := by
    split <;> rfl
  rw [operationOf]
  simp only [Json.get?, Json.members?, Option.bind_some, Members.get?_append, tags, Option.or_none,
    Members.get?_ofOption_of_ne (by decide : "responses" ≠ "summary"),
    Members.get?_ofOption_of_ne (by decide : "responses" ≠ "parameters"),
    Members.get?_ofOption_of_ne (by decide : "responses" ≠ "requestBody"), Option.none_or]
  rfl

theorem rejection?_of_operation_eq_ok (made : operation options contract = .ok value) :
    rejection? value = if contract.takesInput then some rejectedResponse else none := by
  obtain ⟨query, -, made⟩ := bind_eq_ok.mp made
  obtain ⟨body, -, made⟩ := bind_eq_ok.mp made
  obtain ⟨response, -, made⟩ := bind_eq_ok.mp made
  cases made
  have found : (operationOf contract query body response).child? "responses" = _ :=
    get?_operationOf_responses contract query body response
  have inner : (Json.object (responses contract response)).child? "400" = _ :=
    get?_responses_400 contract response
  rw [rejection?, Json.resolve?_cons, found, Option.bind_some, Json.resolve?_cons, inner]
  split <;> rfl

theorem pointsTo_rejectedResponse :
    PointsTo rejectedResponse ("#/components/schemas/" ++ errorBodyComponent) := rfl

theorem readTokens?_errorBody :
    Location.readTokens? ("#/components/schemas/" ++ errorBodyComponent) =
      some ["components", "schemas", errorBodyComponent] := by
  decide

end

/-! ## Components -/

namespace Builder

variable {builder : Builder} {document : Json} {written : Members}

theorem get?_externalSchemas (valid : ∀ document ∈ builder.external, document.Unambiguous)
    (name : String) :
    Members.get? builder.externalSchemas name = lastComponent? builder.external name := by
  have nodup : ∀ document ∈ builder.external,
      (membersAt ["components", "schemas"] document).names.Nodup :=
    fun document mem => nodup_membersAt _ (valid document mem)
  rw [externalSchemas, get?_foldl_putAll nodup]
  simp only [get?_membersAt_cons, get?_membersAt_nil, lastComponent?, component?, Option.bind_assoc]
  exact Option.or_none

theorem needsErrorBody_iff :
    builder.needsErrorBody = true ↔ ∃ route ∈ builder.routes, route.contract.takesInput = true :=
  List.any_eq_true

/-- The schemas are those of other documents, with that of error bodies written over them if it is
needed. -/
theorem schemas_eq_ok (made : builder.schemas = .ok written) :
    if builder.needsErrorBody then
      ∃ body, errorBodyGraph.project builder.options = .ok body ∧
        written = Members.put builder.externalSchemas errorBodyComponent (.object body)
    else written = builder.externalSchemas := by
  unfold schemas at made
  split at made
  · obtain ⟨body, projected, made⟩ := bind_eq_ok.mp made
    cases made
    rw [if_pos ‹_›]
    exact ⟨body, projected, rfl⟩
  · cases made
    rw [if_neg ‹_›]

theorem eq_nil_of_get?_eq_none {members : Members} (h : ∀ name, members.get? name = none) :
    members = [] := by
  cases members with
  | nil => rfl
  | cons member rest =>
    have absent := h member.1
    simp [Members.get?] at absent

/-- A document shows the component schemas it was built with, and no components without them. -/
theorem component?_of_build (built : builder.build = .ok document) :
    ∃ written, builder.schemas = .ok written ∧
      (∀ name, component? document name = Members.get? written name) ∧
      (document.get? "components" = none ↔ written = []) := by
  obtain ⟨-, written, -, made, -, components⟩ := build_eq_ok built
  cases written with
  | nil =>
    have none : document.get? "components" = none := components
    refine ⟨[], made, fun name => ?_, iff_of_true none rfl⟩
    rw [component?, none]
    rfl
  | cons first rest =>
    have some : document.get? "components" =
        some (.object [("schemas", .object (first :: rest))]) := components
    refine ⟨first :: rest, made, fun name => ?_, ?_⟩
    · rw [component?, some]
      rfl
    · simp [some]

theorem resolve?_component {name : String} {value : Json}
    (found : component? document name = some value) :
    document.resolve? ["components", "schemas", name] = some value := by
  have child : ∀ {value inner : Json} {token : String}, value.get? token = some inner →
      value.child? token = some inner := by
    intro value inner token h
    cases value with
    | object members => exact h
    | _ => cases h
  obtain ⟨schemas, outer, found⟩ := Option.bind_eq_some_iff.mp found
  obtain ⟨components, outer, inner⟩ := Option.bind_eq_some_iff.mp outer
  simp [Json.resolve?, child outer, child inner, child found]

/-- A component that is not that of error bodies comes from another document. -/
theorem get?_schemas_of_ne (valid : ∀ document ∈ builder.external, document.Unambiguous)
    (made : builder.schemas = .ok written) {name : String} (h : name ≠ errorBodyComponent) :
    Members.get? written name = lastComponent? builder.external name := by
  have cases := schemas_eq_ok made
  split at cases
  · obtain ⟨body, -, rfl⟩ := cases
    rw [Members.get?_put_of_ne h, get?_externalSchemas valid]
  · rw [cases, get?_externalSchemas valid]

theorem schemas_eq_nil_iff (valid : ∀ document ∈ builder.external, document.Unambiguous)
    (made : builder.schemas = .ok written) :
    written = [] ↔ builder.needsErrorBody = false ∧
      ∀ name, lastComponent? builder.external name = none := by
  have cases := schemas_eq_ok made
  split at cases
  · next needed =>
    obtain ⟨body, -, rfl⟩ := cases
    have found := Members.get?_put_self builder.externalSchemas errorBodyComponent (.object body)
    refine iff_of_false (fun empty => ?_) (by simp [needed])
    rw [empty] at found
    cases found
  · next unneeded =>
    rw [cases, Bool.eq_false_iff]
    constructor
    · intro empty
      refine ⟨unneeded, fun name => ?_⟩
      rw [← get?_externalSchemas valid, empty]
      rfl
    · rintro ⟨-, none⟩
      apply eq_nil_of_get?_eq_none
      intro name
      rw [get?_externalSchemas valid, none]

theorem needsErrorBody_eq_false_iff : builder.needsErrorBody = false ↔
    ∀ route ∈ builder.routes, route.contract.query = none ∧ route.contract.body = none := by
  simp [needsErrorBody, Contract.takesInput]

theorem lastComponent?_eq_none_iff {documents : List Json} :
    (∀ name, lastComponent? documents name = none) ↔
      ∀ document ∈ documents, ∀ name, component? document name = none := by
  simp only [lastComponent?, List.findSome?_eq_none_iff, List.mem_reverse]
  exact forall_comm.trans (forall_congr' fun _ => forall_comm)

/-- Every reference in the document leads to the schema of error bodies, and every other component
is as the last other document has it. -/
theorem refers_of_build (valid : ∀ document ∈ builder.external, document.Unambiguous)
    (built : builder.build = .ok document) : builder.Refers document := by
  obtain ⟨written, made, components, none⟩ := component?_of_build built
  have own := (merges_of_build valid built).own
  constructor
  · intro path key route last
    obtain ⟨operation, operated, found⟩ := own path key route last
    refine ⟨operation, found, ?_⟩
    rw [rejection?_of_operation_eq_ok operated, ← takesInput_iff]
    simp
  · intro path key route operation response last found rejected
    obtain ⟨operation', operated, found'⟩ := own path key route last
    obtain rfl : operation' = operation := Option.some.inj (found'.symm.trans found)
    rw [rejection?_of_operation_eq_ok operated] at rejected
    obtain ⟨input, rejected⟩ := Option.ite_none_right_eq_some.mp rejected
    obtain rfl : rejectedResponse = response := Option.some.inj rejected
    have served : route ∈ builder.routes :=
      List.mem_reverse.mp (List.mem_of_find?_eq_some last)
    have cases := schemas_eq_ok made
    rw [if_pos (needsErrorBody_iff.mpr ⟨route, served, input⟩)] at cases
    obtain ⟨body, projected, rfl⟩ := cases
    have component := (components errorBodyComponent).trans (Members.get?_put_self _ _ _)
    exact ⟨_, _, body, pointsTo_rejectedResponse, readTokens?_errorBody, projected,
      resolve?_component component⟩
  · intro name h
    rw [components, get?_schemas_of_ne valid made h]
  · rw [none, schemas_eq_nil_iff valid made, needsErrorBody_eq_false_iff, lastComponent?_eq_none_iff]

/-- Orders are placed by one route and listed by another one. Both other documents have a component
for orders, and one of them a component under the name of that for error bodies. -/
def ordering : Builder where
  title := "Orders"
  version := "1"
  options := .standard
  routes :=
    [⟨.post, "/orders", ⟨none, [], none, some errorBodyGraph, none⟩⟩,
      ⟨.get, "/orders", ⟨none, [], none, none, none⟩⟩]
  external :=
    [.object [("components", .object [("schemas", .object
        [("Order", .null), (errorBodyComponent, .string "ours")])])],
      .object [("components", .object [("schemas", .object [("Order", .bool true)])])]]

theorem refers_ordering :
    ∃ document operation response, ordering.build = .ok document ∧
      cell? document "/orders" "post" = some operation ∧ rejection? operation = some response ∧
      (∃ pointer tokens body, PointsTo response pointer ∧
        Location.readTokens? pointer = some tokens ∧
        errorBodyGraph.project ordering.options = .ok body ∧
        document.resolve? tokens = some (.object body)) ∧
      component? document "Order" = some (.bool true) := by
  have valid : ∀ document ∈ ordering.external, document.Unambiguous := by
    have schemas : ∀ members : Members, members.names.Nodup →
        (∀ member ∈ members, member.2.Unambiguous) →
        (Json.object [("components", .object [("schemas", .object members)])]).Unambiguous :=
      fun members nodup values => unambiguous_single (unambiguous_single (.object nodup values) _) _
    refine List.forall_mem_cons.mpr ⟨schemas _ (by decide) ?_,
      List.forall_mem_singleton.mpr (schemas _ (by decide) ?_)⟩
    · exact List.forall_mem_cons.mpr ⟨.null, List.forall_mem_singleton.mpr (.string _)⟩
    · exact List.forall_mem_singleton.mpr (.bool _)
  have built : ∃ document, ordering.build = .ok document := ⟨_, rfl⟩
  obtain ⟨document, built⟩ := built
  obtain ⟨rejects, resolves, others, -⟩ := refers_of_build valid built
  obtain ⟨operation, found, rejected⟩ := rejects "/orders" "post" _ rfl
  obtain ⟨response, isResponse⟩ := Option.isSome_iff_exists.mp (rejected.mpr (.inr rfl))
  have target := resolves "/orders" "post" _ operation response rfl found isResponse
  exact ⟨document, operation, response, built, found, isResponse, target,
    others "Order" (by decide)⟩

end Builder

end SchemaDoc.OpenApi
