import SchemaDoc.Proofs.Projection.Traversal

/-!
# The depth cap

A `Visit` is a node that a traversal meets, with the nodes on the way to it. A traversal goes from
a node into its parts, and from a reference to its target unless the target is already on the way.
A projection with a cap fails exactly when such a traversal meets a reference below at least that
many other references. The traversal itself has no cap and may go on forever, as it does where
every resolution makes a new node.
-/
namespace SchemaDoc

/-- A node that a traversal meets, with the nodes above it, the nearest one first. -/
structure Visit where
  above : List Schema
  schema : Schema

namespace Visit

/-- The node of the schema is one of those on a path. -/
def OnPath (path : List Schema) (schema : Schema) : Prop :=
  ∃ other ∈ path, Schema.SameNode other schema

/-- How many references are strictly above. Other nodes do not count. -/
def depth (visit : Visit) : Nat := visit.above.countP Schema.isReference

/-- A traversal goes into all parts, and follows references but for those that close a cycle. -/
inductive Step (bindings : Bindings) (visit : Visit) : Visit → Prop
  | part {inner : Schema} : visit.schema.shape.Part inner →
      Step bindings visit ⟨visit.schema :: visit.above, inner⟩
  | target {reference : Reference Schema} {inner : Schema} :
      visit.schema.shape = .recursive reference → reference.resolve bindings = .ok inner →
        ¬ OnPath (visit.schema :: visit.above) inner →
        Step bindings visit ⟨visit.schema :: visit.above, inner⟩

abbrev Steps (bindings : Bindings) : Visit → Visit → Prop := Relation.ReflTransGen (Step bindings)

theorem Step.toSchema {bindings : Bindings} {visit next : Visit} (step : Step bindings visit next) :
    SchemaDoc.Step bindings visit.schema next.schema := by
  cases step with
  | part part => exact .part part
  | target shape resolved _ => exact .target shape resolved

theorem Steps.reachable {bindings : Bindings} {visit next : Visit}
    (steps : Steps bindings visit next) : Reachable bindings visit.schema next.schema :=
  Relation.ReflTransGen.lift Visit.schema (fun _ _ => Step.toSchema) _ _ steps

theorem depth_below_reference (visit : Visit) (inner : Schema)
    (h : visit.schema.isReference = true) :
    depth ⟨visit.schema :: visit.above, inner⟩ = visit.depth + 1 :=
  List.countP_cons_of_pos h

theorem depth_of_part (visit : Visit) {inner : Schema} (part : visit.schema.shape.Part inner) :
    depth ⟨visit.schema :: visit.above, inner⟩ = visit.depth := by
  have h := Schema.not_isReference_of_part part
  exact List.countP_cons_of_neg (by simp [h])

end Visit

/-- The traversal of a graph from its root meets a node. -/
def Graph.Meets (graph : Graph) (visit : Visit) : Prop :=
  Visit.Steps graph.bindings ⟨[], graph.root⟩ visit

/-- A trail has the nodes of a path on it. -/
def Trail.Follows (trail : Trail) (path : List Schema) : Prop :=
  trail.visited = path.map Schema.identity

namespace Trail.Follows

variable {trail : Trail} {path : List Schema}

theorem start : Trail.start.Follows [] := rfl

theorem visit (h : trail.Follows path) (schema : Schema) :
    (trail.visit schema.identity).Follows (schema :: path) := by
  rw [Trail.Follows, Trail.visit_visited, h, List.map_cons]

theorem of_visited {other : Trail} (h : trail.Follows path) (same : other.visited = trail.visited) :
    other.Follows path := same.trans h

/-- The guard of the projection asks whether the target is on the path. -/
theorem contains_iff (h : trail.Follows path) (schema : Schema) :
    trail.contains schema.identity = true ↔ Visit.OnPath path schema := by
  simp only [Trail.contains, Bool.and_eq_true, bne_iff_ne, List.contains_iff_mem, Visit.OnPath,
    Schema.SameNode]
  rw [h, List.mem_map]
  constructor
  · rintro ⟨shared, other, mem, same⟩
    exact ⟨other, mem, same, shared⟩
  · rintro ⟨other, mem, same, shared⟩
    exact ⟨shared, other, mem, same⟩

end Trail.Follows

namespace Projection

variable {bindings : Bindings} {cap : Nat}

/-- Where all numbers are finite, a failing projection fails at a reference that it meets inside
the tree, at the same depth. -/
theorem exists_reference_of_node_error {follow : Trail → Reference Schema → Outcome}
    {inField : Bool} {trail : Trail} {above : List Schema} {schema : Schema}
    {error : ProjectionError}
    (finite : ∀ inner, Reachable bindings schema inner → ¬ inner.IsNonFinite)
    (follows : trail.Follows above) (h : node follow inField trail schema = .error error) :
    ∃ visit reference trail', Visit.Steps bindings ⟨above, schema⟩ visit ∧
      visit.schema.shape = .recursive reference ∧ visit.depth = above.countP Schema.isReference ∧
      trail'.Follows (visit.schema :: visit.above) ∧ follow trail' reference = .error error := by
  induction schema using Schema.induction_on_parts generalizing inField trail above with
  | node identity shape notes ih =>
    let schema : Schema := .node identity shape notes
    have entered : (trail.visit identity).Follows (schema :: above) := follows.visit schema
    rcases shapeOf_eq_error (node_eq_error h) with
      ⟨reference, rfl, hfollow⟩ | ⟨inner, part, inField', trail', same, hinner⟩ | ⟨x, hx, hnumber⟩
    · exact ⟨⟨above, schema⟩, reference, _, .refl, rfl, rfl, entered, hfollow⟩
    · have into : Visit.Step bindings ⟨above, schema⟩ ⟨schema :: above, inner⟩ := .part part
      obtain ⟨visit, reference, trail'', steps, hshape, hdepth, hfollows, hfollow⟩ :=
        ih inner part (fun other hother => finite other (.head into.toSchema hother))
          (entered.of_visited same) hinner
      refine ⟨visit, reference, trail'', .head into steps, hshape, ?_, hfollows, hfollow⟩
      rw [hdepth]
      exact Visit.depth_of_part ⟨above, schema⟩ part
    -- A number that is not finite: the shape itself, or a member that is read for an enumeration.
    · exfalso
      rcases hnumber with rfl | ⟨inner, part, hshape⟩
      · exact finite schema .refl ⟨x, rfl, hx⟩
      · exact finite inner (.single (.part part)) ⟨x, hshape, hx⟩

/-- A failing projection has met a reference with as many references above it as could still be
followed. -/
theorem exists_visit_of_node_error {remaining : Nat} {inField : Bool} {trail : Trail}
    {above : List Schema} {schema : Schema} {error : ProjectionError}
    (finite : ∀ inner, Reachable bindings schema inner → ¬ inner.IsNonFinite)
    (follows : trail.Follows above)
    (h : node (follow bindings cap remaining) inField trail schema = .error error) :
    (∃ location, error = .depthExceeded cap location) ∧
      ∃ visit, Visit.Steps bindings ⟨above, schema⟩ visit ∧ visit.schema.isReference = true ∧
        above.countP Schema.isReference + remaining ≤ visit.depth := by
  induction remaining generalizing inField trail above schema with
  | zero =>
    obtain ⟨visit, reference, trail', steps, hshape, hdepth, -, hfollow⟩ :=
      exists_reference_of_node_error finite follows h
    rw [follow] at hfollow
    cases hfollow
    exact ⟨⟨_, rfl⟩, visit, steps, Schema.isReference_of_shape hshape, by omega⟩
  | succ remaining ih =>
    obtain ⟨visit, reference, trail', steps, hshape, hdepth, hfollows, hfollow⟩ :=
      exists_reference_of_node_error finite follows h
    have isReference := Schema.isReference_of_shape hshape
    rw [follow] at hfollow
    split at hfollow
    · cases hfollow
    · next inner resolved =>
      split at hfollow
      · cases hfollow
      · next notContained =>
        have into : Visit.Step bindings visit ⟨visit.schema :: visit.above, inner⟩ :=
          .target hshape resolved fun onPath =>
            notContained ((hfollows.contains_iff inner).mpr onPath)
        obtain ⟨hcap, last, rest, hlast, hroom⟩ :=
          ih (fun other hother => finite other
            (steps.reachable.trans (.head into.toSchema hother))) hfollows hfollow
        refine ⟨hcap, last, steps.trans (.head into rest), hlast, ?_⟩
        have below := visit.depth_below_reference inner isReference
        simp only [Visit.depth] at below hdepth hroom ⊢
        omega

/-- A projection that would meet a reference below too many others fails. -/
theorem fails_node_of_steps {start visit : Visit} (steps : Visit.Steps bindings start visit)
    (isReference : visit.schema.isReference = true) (remaining : Nat) (inField : Bool)
    {trail : Trail} (follows : trail.Follows start.above)
    (room : start.depth + remaining ≤ visit.depth) :
    Fails (node (follow bindings cap remaining) inField trail start.schema) := by
  -- From the start on, since the trail and what may still be followed change with each step.
  induction steps using Relation.ReflTransGen.head_induction_on
    generalizing remaining inField trail with
  | refl =>
    have none : remaining = 0 := by omega
    obtain ⟨reference, hshape⟩ := Schema.exists_of_isReference isReference
    apply fails_node
    rw [hshape, none]
    exact fails_error _
  | @head start next step _ ih =>
    have entered := follows.visit start.schema
    apply fails_node
    cases step with
    | part part =>
      refine fails_shapeOf part fun inField' trail' same =>
        ih remaining inField' (entered.of_visited same) ?_
      rw [start.depth_of_part part]
      exact room
    | @target reference inner hshape resolved fresh =>
      rw [hshape, shapeOf]
      cases remaining with
      | zero => exact fails_error _
      | succ remaining =>
        have notContained : ¬ (trail.visit start.schema.identity).contains inner.identity = true :=
          fun h => fresh ((entered.contains_iff inner).mp h)
        simp only [follow, resolved, if_neg notContained]
        apply ih remaining false entered
        rw [start.depth_below_reference inner (Schema.isReference_of_shape hshape)]
        omega

end Projection

namespace Graph

/-- Without infinite or undefined numbers, a projection either fails at the depth cap or succeeds,
and it fails exactly if the traversal of the graph meets a reference with at least as many
references above it as the cap allows. -/
theorem project_depthExceeded_iff (graph : Graph) (options : ProjectionOptions)
    (finite : graph.Finite) :
    ((∃ location, graph.project options = .error (.depthExceeded options.maxDepth location)) ↔
      ∃ visit, graph.Meets visit ∧ visit.schema.isReference = true ∧
        options.maxDepth ≤ visit.depth) ∧
    ((¬ ∃ visit, graph.Meets visit ∧ visit.schema.isReference = true ∧
        options.maxDepth ≤ visit.depth) →
      ∃ document, graph.project options = .ok document) := by
  have meets_of_error : ∀ error, graph.project options = .error error →
      (∃ location, error = .depthExceeded options.maxDepth location) ∧
        ∃ visit, graph.Meets visit ∧ visit.schema.isReference = true ∧
          options.maxDepth ≤ visit.depth := by
    intro error h
    obtain ⟨hcap, visit, steps, isReference, room⟩ :=
      Projection.exists_visit_of_node_error finite Trail.Follows.start
        ((project_eq_error_iff graph options error).mp h)
    exact ⟨hcap, visit, steps, isReference, by simpa using room⟩
  refine ⟨⟨?_, ?_⟩, ?_⟩
  · rintro ⟨location, h⟩
    exact (meets_of_error _ h).2
  · rintro ⟨visit, steps, isReference, room⟩
    obtain ⟨error, h⟩ := Projection.fails_node_of_steps steps isReference options.maxDepth false
      Trail.Follows.start (by simpa [Visit.depth] using room)
    have hproject := (project_eq_error_iff graph options error).mpr h
    obtain ⟨⟨location, rfl⟩, -⟩ := meets_of_error error hproject
    exact ⟨location, hproject⟩
  · intro notMet
    apply exists_ok_of_not_fails
    rintro ⟨error, h⟩
    exact notMet (meets_of_error error h).2

/-! ## A graph without end -/

/-- A reference to a cell, which is made anew each time. -/
def link (number : Nat) : Schema := .node (.step number) (.recursive (.copyOf "cell")) .none

def cell : Schema := .node (.step 1) (.struct [⟨"tail", link 0, false⟩] none) .none

/-- The list of which every tail is new. -/
def endless : Graph := ⟨[("cell", cell)], link 2⟩

theorem endless_shapes {schema : Schema}
    (reached : Reachable endless.bindings endless.root schema) :
    schema.shape = (link 0).shape ∨ schema.shape = cell.shape := by
  induction reached with
  | refl => exact .inl rfl
  | @tail one other _ step ih =>
    cases step with
    | part part =>
      rcases ih with h | h
      · rw [h] at part
        cases part
      · rw [h] at part
        cases part with
        | field mem =>
          obtain rfl := List.mem_singleton.mp mem
          exact .inl rfl
    | target hshape resolved =>
      rcases ih with h | h
      · rw [h] at hshape
        cases hshape
        cases resolved
        exact .inr rfl
      · rw [h] at hshape
        cases hshape

theorem endless_finite : endless.Finite := by
  rintro schema reached ⟨x, hshape, -⟩
  rcases endless_shapes reached with h | h
  · rw [h] at hshape
    cases hshape
  · rw [h] at hshape
    cases hshape

/-- Each link meets the next one in a new cell, one reference further down. -/
theorem endless_step (above : List Schema) (number : Nat) :
    ∃ path, Visit.Steps endless.bindings ⟨above, link number⟩ ⟨path, link 0⟩ ∧
      path.countP Schema.isReference = above.countP Schema.isReference + 1 := by
  let made : Schema := cell.copy .unshared
  have follow : Visit.Step endless.bindings ⟨above, link number⟩ ⟨link number :: above, made⟩ :=
    .target rfl rfl fun ⟨_, _, _, shared⟩ => shared rfl
  have into : Visit.Step endless.bindings ⟨link number :: above, made⟩
      ⟨made :: link number :: above, link 0⟩ :=
    .part (.field (List.mem_singleton_self _))
  refine ⟨made :: link number :: above, .head follow (.single into), ?_⟩
  rw [List.countP_cons_of_neg (by decide), List.countP_cons_of_pos rfl]

theorem endless_meets (count : Nat) :
    ∃ visit, endless.Meets visit ∧ visit.schema = link 0 ∧ visit.depth = count + 1 := by
  induction count with
  | zero =>
    obtain ⟨path, steps, hcount⟩ := endless_step [] 2
    exact ⟨⟨path, link 0⟩, steps, rfl, hcount⟩
  | succ count ih =>
    obtain ⟨⟨above, schema⟩, steps, rfl, hdepth⟩ := ih
    obtain ⟨path, more, hcount⟩ := endless_step above 0
    exact ⟨⟨path, link 0⟩, steps.trans more, rfl, hcount.trans (congrArg (· + 1) hdepth)⟩

theorem endless_depthExceeded :
    endless.Finite ∧ ∃ location,
      endless.project ⟨100, false⟩ = .error (.depthExceeded 100 location) := by
  obtain ⟨visit, meets, isLink, hdepth⟩ := endless_meets 100
  refine ⟨endless_finite, (project_depthExceeded_iff endless ⟨100, false⟩ endless_finite).1.mpr ?_⟩
  refine ⟨visit, meets, ?_, by rw [hdepth]; decide⟩
  rw [isLink]
  rfl

end Graph

end SchemaDoc
