import SchemaDoc.OpenApi.ErrorBody
import SchemaDoc.Projection.Basic

/-!
# OpenAPI documents

A document is put together from the contracts of routes and from other documents. The paths and
component schemas of the other documents are taken over as they are, the last one counting; then
the operations of the routes are written over them, route by route. The first schema that cannot be
projected makes the whole document fail. Where a route takes input, the schema of error bodies
becomes a component that its error response refers to.
-/
namespace SchemaDoc.OpenApi

inductive Method where
  | get
  | post
  | put
  | patch
  | delete
deriving DecidableEq, Repr

def Method.name : Method → String
  | get => "get"
  | post => "post"
  | put => "put"
  | patch => "patch"
  | delete => "delete"

/-- What a route takes and gives. -/
structure Contract where
  summary : Option String
  tags : List String
  query : Option Graph
  body : Option Graph
  response : Option Graph

/-- The route has input, which can be rejected. -/
def Contract.takesInput (contract : Contract) : Bool :=
  contract.query.isSome || contract.body.isSome

structure Route where
  method : Method
  path : String
  contract : Contract

structure Builder where
  title : String
  version : String
  options : ProjectionOptions
  routes : List Route
  external : List Json

def formatVersion : String := "3.0.3"

/-- One parameter for each property of a projected query. -/
def queryParameters (document : Members) : List Json :=
  match (Members.get? document "properties").bind Json.members? with
  | none => []
  | some properties =>
    let required :=
      (((Members.get? document "required").bind Json.items?).getD []).filterMap Json.string?
    properties.map fun (name, schema) =>
      .object
        [("name", .string name), ("in", .string "query"), ("required", .bool (name ∈ required)),
          ("schema", schema)]

/-- The description of JSON content with a schema. -/
def jsonContent (schema : Json) : Json :=
  .object [("application/json", .object [("schema", schema)])]

def successResponse (schema : Json) : Json :=
  .object [("description", .string "Success"), ("content", jsonContent schema)]

def emptyResponse : Json := .object [("description", .string "No content")]

/-- The reference to the schema of error bodies. -/
def errorBodyReference : Json :=
  .object [("$ref", .string ("#/components/schemas/" ++ errorBodyComponent))]

def rejectedResponse : Json :=
  .object [("description", .string "Validation failed"), ("content", jsonContent errorBodyReference)]

/-- Projects a schema that a contract may have. -/
def projected (options : ProjectionOptions) :
    Option Graph → Except ProjectionError (Option Members)
  | none => .ok none
  | some graph => do return some (← graph.project options)

/-- The responses of a contract whose response has the given document. -/
def responses (contract : Contract) (response : Option Members) : Members :=
  (match response with
    | some document => [("200", successResponse (.object document))]
    | none => [("204", emptyResponse)]) ++
  (if contract.takesInput then [("400", rejectedResponse)] else [])

/-- The operation of a contract from the documents of its schemas. -/
def operationOf (contract : Contract) (query body response : Option Members) : Json :=
  .object <|
    Members.ofOption "summary" (contract.summary.map Json.string) ++
    (if contract.tags.isEmpty then [] else [("tags", .array (contract.tags.map Json.string))]) ++
    Members.ofOption "parameters" (query.map fun document => .array (queryParameters document)) ++
    Members.ofOption "requestBody" (body.map fun document =>
      .object [("required", .bool true), ("content", jsonContent (.object document))]) ++
    [("responses", .object (responses contract response))]

/-- The operation of a contract: its query is projected first, then its body and its response. -/
def operation (options : ProjectionOptions) (contract : Contract) : Except ProjectionError Json := do
  let query ← projected options contract.query
  let body ← projected options contract.body
  let response ← projected options contract.response
  return operationOf contract query body response

/-- Writes an operation into the paths of a document. An item that is no object gives way. -/
def putOperation (paths : Members) (path : String) (method : Method) (operation : Json) : Members :=
  let item := ((Members.get? paths path).bind Json.members?).getD []
  Members.put paths path (.object (Members.put item method.name operation))

/-- The members that a document has under some names, one inside the other. -/
def membersAt : List String → Json → Members
  | [], document => document.members?.getD []
  | name :: rest, document =>
    match document.get? name with
    | some part => membersAt rest part
    | none => []

namespace Builder

variable (builder : Builder)

/-- The paths of the other documents. -/
def externalPaths : Members :=
  builder.external.foldl (fun paths document =>
    Members.putAll paths (membersAt ["paths"] document)) []

/-- The component schemas of the other documents. -/
def externalSchemas : Members :=
  builder.external.foldl (fun schemas document =>
    Members.putAll schemas (membersAt ["components", "schemas"] document)) []

/-- Writes the operations of routes over paths. -/
def putRoutes (paths : Members) : List Route → Except ProjectionError Members
  | [] => .ok paths
  | route :: rest => do
    let operation ← operation builder.options route.contract
    putRoutes (putOperation paths route.path route.method operation) rest

/-- Some route can reject its input. -/
def needsErrorBody : Bool := builder.routes.any fun route => route.contract.takesInput

/-- The component schemas, with that of error bodies if it is needed. -/
def schemas : Except ProjectionError Members :=
  if builder.needsErrorBody then do
    let document ← errorBodyGraph.project builder.options
    return Members.put builder.externalSchemas errorBodyComponent (.object document)
  else .ok builder.externalSchemas

/-- The document. -/
def build : Except ProjectionError Json := do
  let paths ← builder.putRoutes builder.externalPaths builder.routes
  let schemas ← builder.schemas
  return .object <|
    [("openapi", .string formatVersion),
      ("info", .object [("title", .string builder.title), ("version", .string builder.version)]),
      ("paths", .object paths)] ++
    (if schemas.isEmpty then [] else [("components", .object [("schemas", .object schemas)])])

end Builder

end SchemaDoc.OpenApi
