import SchemaDoc.Proofs.Projection.Traversal

/-!
# Raising the depth cap

Two projections of one graph with different caps go the same way until the smaller cap is exceeded.
So the smaller cap either decides the result for every larger one, error or document, or it is to
blame itself. Nothing is asked of the graph, which may unfold without end.
-/
namespace SchemaDoc

namespace Projection

variable {α β : Type} {cap : Nat}

/-- The first run exceeds its cap, or the second one has the same result. -/
def Settles (cap : Nat) (run other : Except ProjectionError α) : Prop :=
  (∃ location, run = .error (.depthExceeded cap location)) ∨ other = run

namespace Settles

variable {run other : Except ProjectionError α}

theorem refl (run : Except ProjectionError α) : Settles cap run run := .inr rfl

theorem bind {next next' : α → Except ProjectionError β} (h : Settles cap run other)
    (hnext : ∀ a, Settles cap (next a) (next' a)) :
    Settles cap (run >>= next) (other >>= next') := by
  rcases h with ⟨location, rfl⟩ | rfl
  · exact .inl ⟨location, rfl⟩
  · cases other with
    | error error => exact refl _
    | ok a => exact hnext a

theorem bind_right {next next' : α → Except ProjectionError β}
    (hnext : ∀ a, Settles cap (next a) (next' a)) : Settles cap (run >>= next) (run >>= next') :=
  (refl run).bind hnext

theorem map {f : α → β} (h : Settles cap run other) :
    Settles cap (run >>= fun a => pure (f a)) (other >>= fun a => pure (f a)) :=
  h.bind fun _ => refl _

theorem mapM {f g : α → Except ProjectionError β} {xs : List α}
    (h : ∀ x ∈ xs, Settles cap (f x) (g x)) : Settles cap (xs.mapM f) (xs.mapM g) := by
  induction xs with
  | nil => exact refl _
  | cons x rest ih =>
    obtain ⟨hx, hrest⟩ := List.forall_mem_cons.mp h
    rw [List.mapM_cons, List.mapM_cons]
    exact hx.bind fun b => (ih hrest).map

theorem optionMapM {f g : α → Except ProjectionError β} {x? : Option α}
    (h : ∀ x, x? = some x → Settles cap (f x) (g x)) : Settles cap (x?.mapM f) (x?.mapM g) := by
  cases x? with
  | none => exact refl _
  | some x =>
    rw [Option.mapM_some, Option.mapM_some, map_eq_pure_bind, map_eq_pure_bind]
    exact (h x rfl).map

end Settles

section

variable {follow follow' : Trail → Reference Schema → Outcome} {inField : Bool} {trail : Trail}

/-- Two runs over a shape settle if those over its parts do and, where the shape is a reference,
those that follow it. -/
theorem settles_shapeOf {shape : Shape Schema}
    (parts : ∀ inner, shape.Part inner → ∀ inField' trail',
      Settles cap (node follow inField' trail' inner) (node follow' inField' trail' inner))
    (references : ∀ reference, Settles cap (follow trail reference) (follow' trail reference)) :
    Settles cap (shapeOf follow inField trail shape) (shapeOf follow' inField trail shape) := by
  cases shape with
  | primitive primitive => exact .refl _
  | literal literal => exact .refl _
  | hidden => exact .refl _
  | struct fields index =>
    simp only [shapeOf, fieldsOf_eq_mapM, optional_eq_mapM]
    have hfields : ∀ field ∈ fields,
        Settles cap (node follow true (trail.enter (.property field.name)) field.node)
          (node follow' true (trail.enter (.property field.name)) field.node) :=
      fun field mem => parts field.node (.field mem) _ _
    refine (Settles.mapM fun field mem => (hfields field mem).map).bind fun properties => ?_
    refine (Settles.optionMapM ?_).map
    rintro inner rfl
    exact parts inner .index _ _
  | tuple elements rest =>
    simp only [shapeOf, elementsOf_eq_mapM, optional_eq_mapM]
    refine Settles.bind (Settles.optionMapM ?_) fun others => ?_
    · rintro inner rfl
      exact parts inner .rest _ _
    · refine (Settles.mapM ?_).map
      rintro ⟨element, i⟩ mem
      exact parts element.node (.element (List.fst_mem_of_mem_zipIdx mem)) _ _
  | union members =>
    simp only [shapeOf, membersOf_eq_mapM, ofUnion]
    refine Settles.bind_right fun found => ?_
    cases found with
    | some document => exact .refl _
    | none =>
      refine (Settles.mapM ?_).map
      rintro ⟨member, i⟩ mem
      exact parts member (.member (List.mem_filter.mp (List.fst_mem_of_mem_zipIdx mem)).1) _ _
  | refinement base constraints => exact (parts base .base _ _).map
  | recursive reference => exact references reference

theorem settles_node {schema : Schema}
    (references : ∀ trail reference, Settles cap (follow trail reference) (follow' trail reference)) :
    Settles cap (node follow inField trail schema) (node follow' inField trail schema) := by
  induction schema using Schema.induction_on_parts generalizing inField trail with
  | node identity shape notes ih =>
    rw [node_eq, node_eq]
    exact (settles_shapeOf (fun inner part _ _ => ih inner part) (references _)).map

end

/-- The run that may follow fewer references exceeds its cap, or both have the same result. -/
theorem settles_follow (bindings : Bindings) {larger remaining more : Nat}
    (room : remaining ≤ more) (trail : Trail) (reference : Reference Schema) :
    Settles cap (follow bindings cap remaining trail reference)
      (follow bindings larger more trail reference) := by
  induction remaining generalizing more trail reference with
  | zero => exact .inl ⟨trail.location, rfl⟩
  | succ remaining ih =>
    obtain ⟨more, rfl⟩ : ∃ less, more = less + 1 := ⟨more - 1, by omega⟩
    simp only [follow]
    split
    · exact .refl _
    · split
      · exact .refl _
      · exact settles_node fun trail reference => ih (by omega) trail reference

end Projection

namespace Graph

/-- A document that one cap allows, or a number that is not finite, is the result with every larger
cap as well. A larger cap changes nothing but a depth that is exceeded. -/
theorem project_of_larger_cap (graph : Graph) (headed : Bool) {cap larger : Nat}
    (le : cap ≤ larger) :
    (∀ document, graph.project ⟨cap, headed⟩ = .ok document →
      graph.project ⟨larger, headed⟩ = .ok document) ∧
    (∀ location, graph.project ⟨cap, headed⟩ = .error (.nonFiniteLiteral location) →
      graph.project ⟨larger, headed⟩ = .error (.nonFiniteLiteral location)) ∧
    (graph.project ⟨larger, headed⟩ ≠ graph.project ⟨cap, headed⟩ →
      ∃ location, graph.project ⟨cap, headed⟩ = .error (.depthExceeded cap location)) := by
  have settles : Projection.Settles cap (graph.project ⟨cap, headed⟩)
      (graph.project ⟨larger, headed⟩) := by
    rw [project_eq, project_eq]
    exact (Projection.settles_node fun trail reference =>
      Projection.settles_follow graph.bindings le trail reference).map
  rcases settles with ⟨location, exceeded⟩ | same
  · rw [exceeded]
    exact ⟨fun _ => nofun, fun _ => nofun, fun _ => ⟨location, rfl⟩⟩
  · rw [same]
    exact ⟨fun _ => id, fun _ => id, fun different => absurd rfl different⟩

/-! ## A tree of comments -/

def comments : Schema := .node (.step 0) (.recursive (.slot "Comment")) .none

def comment : Schema :=
  .node (.step 1) (.struct [⟨"text", .make (.step 2) (.primitive .string), false⟩,
    ⟨"replies", .array (.step 3) comments, false⟩] none) .none

/-- A comment has replies, which are comments. -/
def thread : Graph := ⟨[("Comment", comment)], .make (.step 4) (.recursive (.slot "Comment"))⟩

/-- One reference is too few here; beyond two the cap does not matter. -/
theorem thread_of_larger_cap :
    (1 ≤ 2 ∧ ∃ location, thread.project ⟨1, false⟩ = .error (.depthExceeded 1 location)) ∧
    (2 ≤ 100 ∧ ∃ document, thread.project ⟨2, false⟩ = .ok document ∧
      thread.project ⟨100, false⟩ = .ok document) := by
  have tooFew : 1 ≤ 2 := by decide
  have enough : 2 ≤ 100 := by decide
  have different : thread.project ⟨2, false⟩ ≠ thread.project ⟨1, false⟩ := by
    intro same
    cases same
  exact ⟨⟨tooFew, (project_of_larger_cap thread false tooFew).2.2 different⟩,
    ⟨enough, _, rfl, (project_of_larger_cap thread false enough).1 _ rfl⟩⟩

end Graph

end SchemaDoc
