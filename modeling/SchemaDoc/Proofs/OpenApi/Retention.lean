import SchemaDoc.Proofs.OpenApi.Merging

/-!
# What is kept of other documents

Routes are merged into an item operation by operation, but an item of another document is written
whole. What an earlier document has in an item is therefore lost as soon as a later document has
the same path, even if the two have no operation in common.
-/
namespace SchemaDoc.OpenApi

/-- All that another document has in its items is there unchanged, unless a route or a later
document has the same path and key. -/
def Builder.Keeps (builder : Builder) (document : Json) : Prop :=
  ∀ before source after path key operation, builder.external = before ++ source :: after →
    cell? source path key = some operation →
    (∀ route ∈ builder.routes, ¬ (route.path = path ∧ route.method.name = key)) →
    (∀ later ∈ after, cell? later path key = none) →
    cell? document path key = some operation

theorem lastItem?_split (before : List Json) (source : Json) (after : List Json) (path : String) :
    lastItem? (before ++ source :: after) path =
      (lastItem? after path).or ((item? source path).or (lastItem? before path)) := by
  cases here : item? source path <;> simp [lastItem?, here]

theorem lastItem?_eq_none_iff {documents : List Json} {path : String} :
    lastItem? documents path = none ↔ ∀ document ∈ documents, item? document path = none := by
  simp [lastItem?]

theorem exists_of_lastItem? {documents : List Json} {path : String} {item : Json}
    (h : lastItem? documents path = some item) :
    ∃ document ∈ documents, item? document path = some item := by
  obtain ⟨document, mem, found⟩ := List.exists_of_findSome?_eq_some h
  exact ⟨document, List.mem_reverse.mp mem, found⟩

theorem lastRoute?_eq_none_iff {routes : List Route} {path key : String} :
    lastRoute? routes path key = none ↔
      ∀ route ∈ routes, ¬ (route.path = path ∧ route.method.name = key) := by
  simp [lastRoute?, Route.serves]

namespace Builder

variable {builder : Builder} {document source operation : Json} {before after : List Json}
  {path key : String}

/-- Where there is no route for it, a cell is that of the last item of its path. -/
theorem cell_of_unserved (valid : ∀ document ∈ builder.external, document.Unambiguous)
    (built : builder.build = .ok document)
    (unserved : ∀ route ∈ builder.routes, ¬ (route.path = path ∧ route.method.name = key)) :
    cell? document path key = (lastItem? builder.external path).bind (·.get? key) := by
  have merges := merges_of_build valid built
  by_cases served : builder.HasPath path
  · exact merges.beside path key served (lastRoute?_eq_none_iff.mpr unserved)
  · rw [cell?, merges.other path served]

/-- An operation of another document that no route and no later document replaces is kept exactly
if no later document has an item for its path at all. -/
theorem build_keeps_iff (valid : ∀ document ∈ builder.external, document.Unambiguous)
    (built : builder.build = .ok document)
    (split : builder.external = before ++ source :: after)
    (found : cell? source path key = some operation)
    (unserved : ∀ route ∈ builder.routes, ¬ (route.path = path ∧ route.method.name = key))
    (unrepeated : ∀ later ∈ after, cell? later path key = none) :
    cell? document path key = some operation ↔ ∀ later ∈ after, item? later path = none := by
  rw [cell_of_unserved valid built unserved, split, lastItem?_split, ← lastItem?_eq_none_iff]
  cases last : lastItem? after path with
  | none =>
    obtain ⟨item, here, inside⟩ := Option.bind_eq_some_iff.mp found
    have kept : ((item? source path).or (lastItem? before path)).bind (·.get? key) =
        some operation := by
      rw [here]
      exact inside
    simp [kept]
  | some item =>
    obtain ⟨later, mem, there⟩ := exists_of_lastItem? last
    have lost : item.get? key = none := by
      have absent := unrepeated later mem
      rwa [cell?, there] at absent
    simp [lost]

/-- A document that has one operation. -/
def single (path key : String) : Json :=
  .object [("paths", .object [(path, .object [(key, .object [])])])]

/-- Two of the documents are about one path, the first one to read and the second one to write. -/
def sharing : Builder where
  title := "T"
  version := "1"
  options := .standard
  routes := []
  external := [single "/s" "get", single "/s" "post", single "/t" "get"]

theorem unambiguous_sharing : ∀ document ∈ sharing.external, document.Unambiguous := by
  have each : ∀ path key, (single path key).Unambiguous := fun path key =>
    unambiguous_single (unambiguous_single (unambiguous_single Json.unambiguous_empty key) path) _
  simp [sharing, each]

/-- The operation that writes is kept, since the path of the last document is another one. -/
theorem sharing_keeps_post : ∃ document, sharing.build = .ok document ∧
    cell? document "/s" "post" = some (.object []) := by
  have built : ∃ document, sharing.build = .ok document := ⟨_, rfl⟩
  obtain ⟨document, built⟩ := built
  have split : sharing.external =
      [single "/s" "get"] ++ single "/s" "post" :: [single "/t" "get"] := rfl
  have found : cell? (single "/s" "post") "/s" "post" = some (.object []) := rfl
  have kept := build_keeps_iff unambiguous_sharing built split found (List.forall_mem_nil _)
    (List.forall_mem_singleton.mpr rfl)
  exact ⟨document, built, kept.mpr (List.forall_mem_singleton.mpr rfl)⟩

/-- The operation that reads is lost, although every item is an object. -/
theorem not_keeps_sharing : ∃ document, sharing.build = .ok document ∧
    (∀ other ∈ sharing.external, ∀ path item, item? other path = some item →
      ∃ members, item = .object members) ∧
    ¬ sharing.Keeps document := by
  have built : ∃ document, sharing.build = .ok document ∧ cell? document "/s" "get" = none :=
    ⟨_, rfl, rfl⟩
  obtain ⟨document, built, lost⟩ := built
  have items : ∀ own key path item, item? (single own key) path = some item →
      ∃ members, item = .object members := by
    intro own key path item found
    have found : Members.get? [(own, .object [(key, .object [])])] path = some item := found
    have same := congrArg Prod.snd (List.mem_singleton.mp (Members.mem_of_get? found))
    exact ⟨_, same⟩
  have each : ∀ other ∈ sharing.external, ∀ path item, item? other path = some item →
      ∃ members, item = .object members := by
    intro other mem
    simp only [sharing, List.mem_cons, List.not_mem_nil, or_false] at mem
    rcases mem with rfl | rfl | rfl <;> exact items _ _
  refine ⟨document, built, each, fun keeps => ?_⟩
  have unrepeated : ∀ later ∈ [single "/s" "post", single "/t" "get"],
      cell? later "/s" "get" = none :=
    List.forall_mem_cons.mpr ⟨rfl, List.forall_mem_singleton.mpr rfl⟩
  have kept := keeps [] (single "/s" "get") [single "/s" "post", single "/t" "get"] "/s" "get"
    (.object []) rfl rfl (List.forall_mem_nil _) unrepeated
  rw [lost] at kept
  cases kept

end Builder

end SchemaDoc.OpenApi
