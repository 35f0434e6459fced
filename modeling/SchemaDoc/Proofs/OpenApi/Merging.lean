import SchemaDoc.OpenApi.Document
import SchemaDoc.Proofs.Projection.Coherence

/-!
# Routes and other documents in one document

Two folds write the paths of a document: the items of other documents are written whole, one
document after the other, and then the operations of routes one by one. What a place holds in the
end is told without them, by the last route for its path and method and the last document that has
the path. The schemas of the routes decide alone whether there is a document at all.
-/
namespace SchemaDoc.OpenApi

/-- The item of a path in a document. -/
def item? (document : Json) (path : String) : Option Json :=
  (document.get? "paths").bind (·.get? path)

/-- What the item of a path has under a key. -/
def cell? (document : Json) (path key : String) : Option Json :=
  (item? document path).bind (·.get? key)

/-- The schemas of a contract, in the order in which they are projected. -/
def Contract.graphs (contract : Contract) : List Graph :=
  contract.query.toList ++ (contract.body.toList ++ contract.response.toList)

/-- The route is for a path, with the method of a name. -/
def Route.serves (path key : String) (route : Route) : Bool :=
  route.path == path && route.method.name == key

/-- The last of some routes for a path and the name of a method. -/
def lastRoute? (routes : List Route) (path key : String) : Option Route :=
  routes.reverse.find? (Route.serves path key)

/-- The item of a path in the last of some documents that has one. -/
def lastItem? (documents : List Json) (path : String) : Option Json :=
  documents.reverse.findSome? (item? · path)

namespace Builder

/-- The schemas of all routes, in the order in which they are projected. -/
def graphs (builder : Builder) : List Graph :=
  builder.routes.flatMap fun route => route.contract.graphs

/-- The error is that of the first schema that cannot be projected. -/
def FirstError (builder : Builder) (error : ProjectionError) : Prop :=
  ∃ before graph after, builder.graphs = before ++ graph :: after ∧
    (∀ earlier ∈ before, ∃ document, earlier.project builder.options = .ok document) ∧
    graph.project builder.options = .error error

/-- Some route is for a path. -/
def HasPath (builder : Builder) (path : String) : Prop := ∃ route ∈ builder.routes, route.path = path

/-- What the paths of a document hold: operations where there are routes for them, beside them what
another document has in an item of the path, and items of other documents where there is no
route. -/
structure Merges (builder : Builder) (document : Json) : Prop where
  own : ∀ path key route, lastRoute? builder.routes path key = some route →
    ∃ operation, OpenApi.operation builder.options route.contract = .ok operation ∧
      cell? document path key = some operation
  beside : ∀ path key, builder.HasPath path → lastRoute? builder.routes path key = none →
    cell? document path key = (lastItem? builder.external path).bind (·.get? key)
  other : ∀ path, ¬ builder.HasPath path →
    item? document path = lastItem? builder.external path

end Builder

/-! ## Items of other documents -/

theorem get?_membersAt_nil (document : Json) (name : String) :
    Members.get? (membersAt [] document) name = document.get? name := by
  cases document <;> rfl

theorem get?_membersAt_cons (document : Json) (first : String) (names : List String)
    (name : String) :
    Members.get? (membersAt (first :: names) document) name =
      (document.get? first).bind fun part => Members.get? (membersAt names part) name := by
  rw [membersAt]
  cases document.get? first <;> rfl

theorem unambiguous_single {value : Json} (valid : value.Unambiguous) (name : String) :
    (Json.object [(name, value)]).Unambiguous :=
  .object (List.nodup_singleton name) (List.forall_mem_singleton.mpr valid)

theorem nodup_membersAt (names : List String) {document : Json} (valid : document.Unambiguous) :
    (membersAt names document).names.Nodup := by
  induction names generalizing document with
  | nil =>
    cases document with
    | object members => exact valid.nodup
    | _ => exact List.nodup_nil
  | cons name rest ih =>
    rw [membersAt]
    split
    · next part found =>
      obtain ⟨members, hmembers, found⟩ := Option.bind_eq_some_iff.mp found
      have whole : document = .object members := by
        cases document <;> cases hmembers
        rfl
      exact ih ((whole ▸ valid).of_mem (Members.mem_of_get? found))
    · exact List.nodup_nil

/-- Where members of several documents are written one after the other, the last document that has
a name decides. -/
theorem get?_foldl_putAll {part : Json → Members} {documents : List Json}
    (nodup : ∀ document ∈ documents, (part document).names.Nodup) (members : Members)
    (name : String) :
    Members.get? (documents.foldl (fun written document => written.putAll (part document)) members)
        name =
      (documents.reverse.findSome? fun document => Members.get? (part document) name).or
        (Members.get? members name) := by
  induction documents generalizing members with
  | nil => rfl
  | cons document rest ih =>
    obtain ⟨first, later⟩ := List.forall_mem_cons.mp nodup
    have written := Members.get?_putAll first members name
    rw [List.foldl_cons, ih later, written, List.reverse_cons, List.findSome?_append, Option.or_assoc]
    simp only [List.findSome?_singleton]

/-- Of the documents that have a path the last one decides. -/
theorem get?_externalPaths {builder : Builder}
    (valid : ∀ document ∈ builder.external, document.Unambiguous) (path : String) :
    Members.get? builder.externalPaths path = lastItem? builder.external path := by
  have nodup : ∀ document ∈ builder.external, (membersAt ["paths"] document).names.Nodup :=
    fun document mem => nodup_membersAt _ (valid document mem)
  rw [Builder.externalPaths, get?_foldl_putAll nodup]
  simp only [get?_membersAt_cons, get?_membersAt_nil]
  exact Option.or_none

/-! ## Operations of routes -/

section

variable {paths written : Members} {path other key : String} {method : Method} {operation : Json}

theorem get?_putOperation_of_ne (h : other ≠ path) :
    Members.get? (putOperation paths path method operation) other = Members.get? paths other :=
  Members.get?_put_of_ne h paths _

theorem cell_putOperation_self :
    (Members.get? (putOperation paths path method operation) path).bind (·.get? method.name) =
      some operation := by
  rw [putOperation, Members.get?_put_self]
  exact Members.get?_put_self _ _ _

/-- An operation leaves the other keys of its item as they are. An item that is no object has no
keys. -/
theorem cell_putOperation_of_ne (h : key ≠ method.name) :
    (Members.get? (putOperation paths path method operation) path).bind (·.get? key) =
      (Members.get? paths path).bind (·.get? key) := by
  rw [putOperation, Members.get?_put_self]
  have inner := Members.get?_put_of_ne h
    (((Members.get? paths path).bind Json.members?).getD []) operation
  have keys : Members.get? (((Members.get? paths path).bind Json.members?).getD []) key =
      (Members.get? paths path).bind (·.get? key) := by
    cases Members.get? paths path with
    | none => rfl
    | some item => cases item <;> rfl
  exact inner.trans keys

theorem lastRoute?_cons (route : Route) (rest : List Route) (path key : String) :
    lastRoute? (route :: rest) path key =
      (lastRoute? rest path key).or (if route.serves path key then some route else none) := by
  rw [lastRoute?, List.reverse_cons, List.find?_append, List.find?_singleton]
  rfl

theorem serves_iff {route : Route} :
    route.serves path key = true ↔ route.path = path ∧ route.method.name = key := by
  simp [Route.serves]

/-- One route writes its own operation and nothing else. -/
theorem cell_putOperation_of_not_serves {route : Route} (h : route.serves path key = false) :
    (Members.get? (putOperation paths route.path route.method operation) path).bind
      (·.get? key) = (Members.get? paths path).bind (·.get? key) := by
  by_cases same : path = route.path
  · subst same
    apply cell_putOperation_of_ne
    rintro rfl
    simp [Route.serves] at h
  · rw [get?_putOperation_of_ne same]

end

namespace Builder

variable {builder : Builder} {paths written : Members} {path key : String} {routes : List Route}

/-- Where there is no route for it, a cell is as before. -/
theorem cell_putRoutes_of_none (h : builder.putRoutes paths routes = .ok written)
    (none : lastRoute? routes path key = none) :
    (Members.get? written path).bind (·.get? key) =
      (Members.get? paths path).bind (·.get? key) := by
  induction routes generalizing paths with
  | nil =>
    cases h
    rfl
  | cons route rest ih =>
    obtain ⟨operation, -, h⟩ := bind_eq_ok.mp h
    rw [lastRoute?_cons, Option.or_eq_none_iff] at none
    have unserved : route.serves path key = false := by
      by_contra serves
      simp [serves] at none
    rw [ih h none.1, cell_putOperation_of_not_serves unserved]

/-- The last route for a cell has written it. -/
theorem cell_putRoutes_of_some (h : builder.putRoutes paths routes = .ok written) {route : Route}
    (last : lastRoute? routes path key = some route) :
    ∃ operation, OpenApi.operation builder.options route.contract = .ok operation ∧
      (Members.get? written path).bind (·.get? key) = some operation := by
  induction routes generalizing paths with
  | nil => cases last
  | cons first rest ih =>
    obtain ⟨operation, made, h⟩ := bind_eq_ok.mp h
    rw [lastRoute?_cons] at last
    cases later : lastRoute? rest path key with
    | some found =>
      rw [later] at last
      cases last
      exact ih h later
    | none =>
      rw [later, Option.none_or] at last
      split at last
      · next serves =>
        cases last
        obtain ⟨rfl, rfl⟩ := serves_iff.mp serves
        exact ⟨operation, made, (cell_putRoutes_of_none h later).trans cell_putOperation_self⟩
      · cases last

/-- Where no route is for a path, its item is as before. -/
theorem get?_putRoutes_of_not_path (h : builder.putRoutes paths routes = .ok written)
    (absent : ∀ route ∈ routes, route.path ≠ path) :
    Members.get? written path = Members.get? paths path := by
  induction routes generalizing paths with
  | nil =>
    cases h
    rfl
  | cons route rest ih =>
    obtain ⟨operation, -, h⟩ := bind_eq_ok.mp h
    obtain ⟨first, rest⟩ := List.forall_mem_cons.mp absent
    rw [ih h rest, get?_putOperation_of_ne first.symm]

end Builder

/-! ## Errors -/

variable (options : ProjectionOptions)

theorem sameErrors_projected (graph? : Option Graph) :
    SameErrors (projected options graph?) (graph?.toList.mapM (Graph.project options)) := by
  cases graph? with
  | none => exact sameErrors_ok none []
  | some graph =>
    rw [Option.toList_some, List.mapM_cons, List.mapM_nil]
    exact SameErrors.bind (fun _ => Iff.rfl) fun _ _ => sameErrors_ok _ _

theorem sameErrors_operation (contract : Contract) :
    SameErrors (operation options contract) (contract.graphs.mapM (Graph.project options)) := by
  rw [Contract.graphs, List.mapM_append, List.mapM_append, operation]
  apply SameErrors.bind (sameErrors_projected options contract.query)
  intro query queries
  rw [bind_assoc]
  apply SameErrors.bind (sameErrors_projected options contract.body)
  intro body bodies
  rw [bind_assoc]
  apply SameErrors.bind (sameErrors_projected options contract.response)
  intro response responses
  exact sameErrors_ok _ _

theorem sameErrors_putRoutes (builder : Builder) (paths : Members) (routes : List Route) :
    SameErrors (builder.putRoutes paths routes)
      ((routes.flatMap fun route => route.contract.graphs).mapM (Graph.project builder.options)) := by
  induction routes generalizing paths with
  | nil => exact sameErrors_ok paths []
  | cons route rest ih =>
    rw [List.flatMap_cons, List.mapM_append]
    apply SameErrors.bind (sameErrors_operation builder.options route.contract)
    intro operation documents
    have later := ih (putOperation paths route.path route.method operation)
    exact later.append_pure (documents ++ ·)

/-- The schema of error bodies can be projected under all options. -/
theorem exists_project_errorBody : ∃ document, errorBodyGraph.project options = .ok document := by
  obtain ⟨cap, metaSchema⟩ := options
  cases metaSchema <;> exact ⟨_, rfl⟩

namespace Builder

variable {builder : Builder}

theorem exists_schemas (builder : Builder) : ∃ schemas, builder.schemas = .ok schemas := by
  obtain ⟨document, made⟩ := exists_project_errorBody builder.options
  unfold schemas
  split
  · rw [made]
    exact ⟨_, rfl⟩
  · exact ⟨_, rfl⟩

theorem build_eq_ok {document : Json} (h : builder.build = .ok document) :
    ∃ paths schemas, builder.putRoutes builder.externalPaths builder.routes = .ok paths ∧
      builder.schemas = .ok schemas ∧ document.get? "paths" = some (.object paths) ∧
      document.get? "components" =
        if schemas.isEmpty then none else some (.object [("schemas", .object schemas)]) := by
  obtain ⟨paths, written, h⟩ := bind_eq_ok.mp h
  obtain ⟨schemas, made, h⟩ := bind_eq_ok.mp h
  cases h
  refine ⟨paths, schemas, written, made, rfl, ?_⟩
  split <;> rfl

theorem sameErrors_build (builder : Builder) :
    SameErrors builder.build (builder.graphs.mapM (Graph.project builder.options)) := by
  have routes := sameErrors_putRoutes builder builder.externalPaths builder.routes
  obtain ⟨schemas, made⟩ := builder.exists_schemas
  intro error
  rw [graphs, ← routes error, build, bind_eq_error]
  simp [made, bind, Except.bind, pure, Except.pure]

theorem merges_of_build (valid : ∀ document ∈ builder.external, document.Unambiguous)
    {document : Json} (h : builder.build = .ok document) : builder.Merges document := by
  obtain ⟨paths, -, written, -, found, -⟩ := build_eq_ok h
  have items : ∀ path, item? document path = Members.get? paths path := by
    intro path
    rw [item?, found]
    rfl
  constructor
  · intro path key route last
    rw [cell?, items]
    exact cell_putRoutes_of_some written last
  · intro path key _ none
    rw [cell?, items, cell_putRoutes_of_none written none, get?_externalPaths valid]
  · intro path absent
    rw [items, get?_putRoutes_of_not_path written, get?_externalPaths valid]
    exact fun route mem same => absent ⟨route, mem, same⟩

/-- Whether there is a document is up to the schemas of the routes: the first one that cannot be
projected gives the error. The document has the operation of the last route at every path and
method with routes, and otherwise what the last other document has there. -/
theorem build_merges (builder : Builder)
    (valid : ∀ document ∈ builder.external, document.Unambiguous) :
    (∀ error, builder.build = .error error ↔ builder.FirstError error) ∧
    ((∃ document, builder.build = .ok document) ↔
      ∀ graph ∈ builder.graphs, ∃ document, graph.project builder.options = .ok document) ∧
    ∀ document, builder.build = .ok document → builder.Merges document := by
  have errors := builder.sameErrors_build
  refine ⟨fun error => ?_, ?_, fun document => merges_of_build valid⟩
  · exact (errors error).trans mapM_eq_error_iff
  · exact (errors.exists_ok_iff).trans exists_mapM_eq_ok_iff

/-- Failures are reported by one route and listed by another one, which is given twice. The last of
the other documents replaces an item of the first one by a text. -/
def reporting : Builder where
  title := "Reports"
  version := "1"
  options := .standard
  routes :=
    [⟨.get, "/reports", ⟨some "Drafted", [], none, none, none⟩⟩,
      ⟨.post, "/reports", ⟨none, [], none, some errorBodyGraph, none⟩⟩,
      ⟨.get, "/reports", ⟨some "Listed", [], none, none, none⟩⟩]
  external :=
    [.object [("paths", .object
        [("/reports", .object [("get", .null), ("parameters", .array [])]),
          ("/status", .object [])])],
      .object [("paths", .object [("/status", .string "moved")])]]

theorem build_reporting :
    ∃ document, reporting.build = .ok document ∧
      cell? document "/reports" "get" =
        some (operationOf ⟨some "Listed", [], none, none, none⟩ none none none) ∧
      cell? document "/reports" "parameters" = some (.array []) ∧
      item? document "/status" = some (.string "moved") := by
  have valid : ∀ document ∈ reporting.external, document.Unambiguous := by
    refine List.forall_mem_cons.mpr ⟨unambiguous_single ?_ _,
      List.forall_mem_singleton.mpr (unambiguous_single ?_ _)⟩
    · refine .object (by decide) (List.forall_mem_cons.mpr ⟨.object (by decide) ?_,
        List.forall_mem_singleton.mpr (.object List.nodup_nil (List.forall_mem_nil _))⟩)
      exact List.forall_mem_cons.mpr ⟨.null,
        List.forall_mem_singleton.mpr (.array (List.forall_mem_nil _))⟩
    · exact unambiguous_single (.string _) _
  obtain ⟨-, succeeds, merges⟩ := reporting.build_merges valid
  have projects : ∀ graph ∈ reporting.graphs,
      ∃ document, graph.project reporting.options = .ok document :=
    List.forall_mem_singleton.mpr (exists_project_errorBody _)
  obtain ⟨document, built⟩ := succeeds.mpr projects
  obtain ⟨own, beside, other⟩ := merges document built
  obtain ⟨operation, made, found⟩ := own "/reports" "get" _ rfl
  cases made
  have served : reporting.HasPath "/reports" := ⟨_, List.mem_cons_self, rfl⟩
  have unserved : ¬ reporting.HasPath "/status" := by
    simp [HasPath, reporting]
  exact ⟨document, built, found, beside "/reports" "parameters" served rfl, other "/status" unserved⟩

end Builder

end SchemaDoc.OpenApi
