import SchemaDoc.Proofs.Projection.Traversal

/-!
# Projecting in another place

Of its trail, a projection uses the location in errors only, and the nodes on the way to it only to
recognise a target of a reference. So a schema is projected in the same way in two places if the
targets of the references that it leads to are on both trails or on none, and the errors differ in
nothing but the locations. How the locations are related is left open; it only has to last when both
go one step further.
-/
namespace SchemaDoc

/-- Two errors of one kind, at locations that are related. -/
inductive ProjectionError.Moved (R : Location → Location → Prop) :
    ProjectionError → ProjectionError → Prop
  | depthExceeded (cap : Nat) {location other : Location} : R location other →
      Moved R (.depthExceeded cap location) (.depthExceeded cap other)
  | nonFiniteLiteral {location other : Location} : R location other →
      Moved R (.nonFiniteLiteral location) (.nonFiniteLiteral other)

namespace Projection

variable {α β : Type} {R : Location → Location → Prop}

/-- Two runs with the same value, or with errors that differ in their locations. -/
inductive Moves (R : Location → Location → Prop) :
    Except ProjectionError α → Except ProjectionError α → Prop
  | ok (a : α) : Moves R (.ok a) (.ok a)
  | error {error other : ProjectionError} : error.Moved R other →
      Moves R (.error error) (.error other)

namespace Moves

variable {run other : Except ProjectionError α}

theorem bind {next next' : α → Except ProjectionError β} (h : Moves R run other)
    (hnext : ∀ a, Moves R (next a) (next' a)) : Moves R (run >>= next) (other >>= next') := by
  cases h with
  | ok a => exact hnext a
  | error moved => exact .error moved

theorem map {f : α → β} (h : Moves R run other) :
    Moves R (run >>= fun a => pure (f a)) (other >>= fun a => pure (f a)) :=
  h.bind fun a => .ok (f a)

theorem mapM {f g : α → Except ProjectionError β} {xs : List α}
    (h : ∀ x ∈ xs, Moves R (f x) (g x)) : Moves R (xs.mapM f) (xs.mapM g) := by
  induction xs with
  | nil => exact .ok []
  | cons x rest ih =>
    obtain ⟨hx, hrest⟩ := List.forall_mem_cons.mp h
    rw [List.mapM_cons, List.mapM_cons]
    exact hx.bind fun b => (ih hrest).map

theorem optionMapM {f g : α → Except ProjectionError β} {x? : Option α}
    (h : ∀ x, x? = some x → Moves R (f x) (g x)) : Moves R (x?.mapM f) (x?.mapM g) := by
  cases x? with
  | none => exact .ok none
  | some x =>
    rw [Option.mapM_some, Option.mapM_some, map_eq_pure_bind, map_eq_pure_bind]
    exact (h x rfl).map

/-- A value of one run is that of the other one. -/
theorem eq_ok_iff (h : Moves R run other) {a : α} : run = .ok a ↔ other = .ok a := by
  cases h <;> simp

/-- Runs whose errors have the same locations are the same. -/
theorem eq (h : Moves Eq run other) : run = other := by
  cases h with
  | ok a => rfl
  | error moved => cases moved <;> simp_all

end Moves

/-! ## Literals -/

section

variable {location other : Location}

theorem moves_ofLiteral (place : R location other) (literal : Literal) :
    Moves R (ofLiteral location literal) (ofLiteral other literal) := by
  unfold ofLiteral
  cases literal.toJson? with
  | none => exact .error (.nonFiniteLiteral place)
  | some value => exact .ok _

theorem moves_literalValues (place : R location other) (scalar : Option String)
    (values : List Json) (members : List (Option Literal)) :
    Moves R (Alternatives.literalValues location scalar values members)
      (Alternatives.literalValues other scalar values members) := by
  induction members generalizing scalar values with
  | nil => exact .ok _
  | cons member rest ih =>
    cases member with
    | none => exact .ok none
    | some literal =>
      simp only [Alternatives.literalValues]
      split
      · cases literal.toJson? with
        | none => exact .error (.nonFiniteLiteral place)
        | some value => exact ih _ _
      · exact .ok none

theorem moves_literalEnum (place : R location other) (members : List (Option Literal)) :
    Moves R (Alternatives.literalEnum location members)
      (Alternatives.literalEnum other members) := by
  unfold Alternatives.literalEnum
  split
  · exact .ok none
  · exact (moves_literalValues place none [] members).map

end

end Projection

/-! ## Trails -/

/-- A reference in the schema, or in what it leads to, has the target. -/
def Schema.RefersTo (bindings : Bindings) (schema target : Schema) : Prop :=
  ∃ inner reference, Reachable bindings schema inner ∧ inner.shape = .recursive reference ∧
    reference.resolve bindings = .ok target

/-- None of the nodes is the target of a reference that the schema leads to. -/
def Schema.Avoids (bindings : Bindings) (schema : Schema) (nodes : List Identity) : Prop :=
  ∀ target, schema.RefersTo bindings target → target.identity ≠ .unshared →
    target.identity ∉ nodes

/-- Schemas that only lead to one another avoid all nodes that are not among theirs. -/
theorem Schema.avoids_of_closed {bindings : Bindings} {schema : Schema} {nodes : List Identity}
    (all : List Schema) (parts : ∀ schema ∈ all, ∀ inner ∈ schema.shape.parts, inner ∈ all)
    (targets : ∀ schema ∈ all, ∀ reference, schema.shape = .recursive reference →
      ∀ target, reference.resolve bindings = .ok target → target ∈ all)
    (apart : ∀ schema ∈ all, schema.identity ∉ nodes) (mem : schema ∈ all) :
    schema.Avoids bindings nodes := by
  rintro target ⟨inner, reference, reached, hshape, resolved⟩ -
  have among : inner ∈ all := mem_of_reachable parts targets mem reached
  exact apart target (targets inner among reference hshape target resolved)

theorem Schema.Avoids.mono {bindings : Bindings} {schema : Schema} {nodes fewer : List Identity}
    (h : schema.Avoids bindings nodes) (among : fewer ⊆ nodes) : schema.Avoids bindings fewer :=
  fun target refers shared mem => h target refers shared (among mem)

namespace Trail

variable {bindings : Bindings} {trail trail' : Trail} {schema inner : Schema}

/-- Nothing that the schema leads to is on one of the trails only. -/
def Agree (bindings : Bindings) (schema : Schema) (trail trail' : Trail) : Prop :=
  ∀ inner, Reachable bindings schema inner →
    trail.contains inner.identity = trail'.contains inner.identity

/-- No target of a reference that the schema leads to is on one of the trails only. -/
def SameTargets (bindings : Bindings) (schema : Schema) (trail trail' : Trail) : Prop :=
  ∀ target, schema.RefersTo bindings target →
    trail.contains target.identity = trail'.contains target.identity

theorem contains_congr (same : trail'.visited = trail.visited) (identity : Identity) :
    trail'.contains identity = trail.contains identity := by
  rw [contains, contains, same]

theorem contains_visit (trail : Trail) (visited identity : Identity) :
    (trail.visit visited).contains identity =
      (identity != .unshared && decide (identity = visited) || trail.contains identity) := by
  simp [contains, visit, Bool.and_or_distrib_left]

/-- A node that is not met again may be on one trail and not on the other. -/
theorem Agree.visit_apart {identity identity' : Identity}
    (apart : ∀ inner, Reachable bindings schema inner → inner.identity ≠ .unshared →
      inner.identity ≠ identity ∧ inner.identity ≠ identity') (trail : Trail) :
    Agree bindings schema (trail.visit identity) (trail.visit identity') := by
  intro inner reached
  rw [contains_visit, contains_visit]
  by_cases unshared : inner.identity = .unshared
  · simp [unshared]
  · obtain ⟨one, other⟩ := apart inner reached unshared
    simp [one, other]

theorem Agree.sameTargets (h : Agree bindings schema trail trail') :
    SameTargets bindings schema trail trail' := by
  rintro target ⟨inner, reference, reached, hshape, resolved⟩
  exact h target (reached.tail (.target hshape resolved))

namespace SameTargets

theorem step (h : SameTargets bindings schema trail trail') (step : Step bindings schema inner) :
    SameTargets bindings inner trail trail' := by
  rintro target ⟨further, reference, reached, hshape, resolved⟩
  exact h target ⟨further, reference, .head step reached, hshape, resolved⟩

theorem visit (h : SameTargets bindings schema trail trail') (identity : Identity) :
    SameTargets bindings schema (trail.visit identity) (trail'.visit identity) := by
  intro target refers
  rw [contains_visit, contains_visit, h target refers]

theorem of_visited (h : SameTargets bindings schema trail trail') {other other' : Trail}
    (same : other.visited = trail.visited) (same' : other'.visited = trail'.visited) :
    SameTargets bindings schema other other' := by
  intro target refers
  rw [contains_congr same, contains_congr same', h target refers]

/-- Trails may differ in nodes that the schema avoids. -/
theorem of_avoids {nodes nodes' seen : List Identity}
    (avoids : schema.Avoids bindings (nodes ++ nodes')) (same : trail.visited = nodes ++ seen)
    (same' : trail'.visited = nodes' ++ seen) : SameTargets bindings schema trail trail' := by
  intro target refers
  by_cases unshared : target.identity = .unshared
  · simp [contains, unshared]
  · have away := avoids target refers unshared
    rw [List.mem_append, not_or] at away
    simp [contains, same, same', away.1, away.2]

end SameTargets

end Trail

/-! ## Runs -/

namespace Projection

variable {R : Location → Location → Prop} {inField : Bool} {trail trail' : Trail}

section

variable {follow : Trail → Reference Schema → Outcome}

theorem related_alternative
    (closed : ∀ {location other}, R location other → ∀ step, R (location ++ [step]) (other ++ [step]))
    (place : R trail.location trail'.location) (alone : Bool) (i : Nat) :
    R (trail.alternative alone i).location (trail'.alternative alone i).location := by
  cases alone with
  | true => exact place
  | false => exact closed place _

/-- Two runs over a shape differ in locations only if those over its parts do and, where the shape
is a reference, those that follow it. -/
theorem moves_shapeOf
    (closed : ∀ {location other}, R location other → ∀ step, R (location ++ [step]) (other ++ [step]))
    {shape : Shape Schema} (place : R trail.location trail'.location)
    (parts : ∀ inner, shape.Part inner → ∀ inField' one other, R one.location other.location →
      one.visited = trail.visited → other.visited = trail'.visited →
        Moves R (node follow inField' one inner) (node follow inField' other inner))
    (references : ∀ reference, shape = .recursive reference →
      Moves R (follow trail reference) (follow trail' reference)) :
    Moves R (shapeOf follow inField trail shape) (shapeOf follow inField trail' shape) := by
  have entered : ∀ step, R (trail.enter step).location (trail'.enter step).location :=
    fun step => closed place step
  cases shape with
  | primitive primitive => exact .ok _
  | hidden => exact .ok _
  | literal literal => exact moves_ofLiteral place literal
  | struct fields index =>
    simp only [shapeOf, fieldsOf_eq_mapM, optional_eq_mapM]
    apply Moves.bind
    · apply Moves.mapM
      intro field mem
      exact (parts field.node (.field mem) true _ _ (entered _) rfl rfl).map
    · intro properties
      apply Moves.map
      apply Moves.optionMapM
      rintro inner rfl
      exact parts inner .index false _ _ (entered _) rfl rfl
  | tuple elements rest =>
    simp only [shapeOf, elementsOf_eq_mapM, optional_eq_mapM]
    apply Moves.bind
    · apply Moves.optionMapM
      rintro inner rfl
      exact parts inner .rest false _ _ (entered _) rfl rfl
    · intro others
      apply Moves.map
      apply Moves.mapM
      intro element mem
      have part : Shape.Part (.tuple elements rest) element.1.node :=
        .element (List.fst_mem_of_mem_zipIdx mem)
      exact parts element.1.node part false _ _ (entered _) rfl rfl
  | union members =>
    simp only [shapeOf, membersOf_eq_mapM, ofUnion]
    apply Moves.bind (moves_literalEnum place _)
    intro found
    cases found with
    | some document => exact .ok document
    | none =>
      apply Moves.map
      apply Moves.mapM
      intro member mem
      have counted := (List.mem_filter.mp (List.fst_mem_of_mem_zipIdx mem)).1
      exact parts member.1 (.member counted) false _ _ (related_alternative closed place _ _)
        (Trail.alternative_visited _ _ _) (Trail.alternative_visited _ _ _)
  | refinement base constraints => exact (parts base .base false _ _ place rfl rfl).map
  | recursive reference => exact references reference rfl

end

variable {bindings : Bindings} {schema : Schema}

theorem moves_node_of_follow {follow : Trail → Reference Schema → Outcome}
    (closed : ∀ {location other}, R location other → ∀ step, R (location ++ [step]) (other ++ [step]))
    (following : ∀ {schema trail trail' reference}, schema.shape = .recursive reference →
      R trail.location trail'.location → Trail.SameTargets bindings schema trail trail' →
        Moves R (follow trail reference) (follow trail' reference))
    (place : R trail.location trail'.location)
    (same : Trail.SameTargets bindings schema trail trail') :
    Moves R (node follow inField trail schema) (node follow inField trail' schema) := by
  induction schema using Schema.induction_on_parts generalizing inField trail trail' with
  | node identity shape notes ih =>
    have entered := same.visit identity
    have placed : R (trail.visit identity).location (trail'.visit identity).location := place
    rw [node_eq, node_eq]
    apply Moves.map
    apply moves_shapeOf closed placed
    · intro inner part inField' one other place' hone hother
      exact ih inner part place' ((entered.step (.part part)).of_visited hone hother)
    · intro reference hshape
      exact following hshape place entered

/-- A schema is projected in the same way wherever the targets that it leads to are on both trails
or on none; only the locations of errors differ. -/
theorem moves_node
    (closed : ∀ {location other}, R location other → ∀ step, R (location ++ [step]) (other ++ [step]))
    {cap remaining : Nat} (place : R trail.location trail'.location)
    (same : Trail.SameTargets bindings schema trail trail') :
    Moves R (node (follow bindings cap remaining) inField trail schema)
      (node (follow bindings cap remaining) inField trail' schema) := by
  induction remaining generalizing inField trail trail' schema with
  | zero =>
    apply moves_node_of_follow closed _ place same
    intro _ _ _ _ _ place _
    exact .error (.depthExceeded cap place)
  | succ remaining ih =>
    apply moves_node_of_follow closed _ place same
    intro schema trail trail' reference hshape place same
    simp only [follow]
    cases hresolve : reference.resolve bindings with
    | error _ => exact .ok stub
    | ok target =>
      -- Both trails recognise the target or none does.
      have further : Step bindings schema target := .target hshape hresolve
      have seen := same target ⟨schema, reference, .refl, hshape, hresolve⟩
      simp only [seen]
      split
      · exact .ok stub
      · exact ih place (same.step further)

/-- In one place, trails that cannot be told apart give one result, be it a document or an error. -/
theorem node_eq_of_sameTargets {cap remaining : Nat} (place : trail.location = trail'.location)
    (same : Trail.SameTargets bindings schema trail trail') :
    node (follow bindings cap remaining) inField trail schema =
      node (follow bindings cap remaining) inField trail' schema :=
  (moves_node (R := Eq) (fun h _ => h ▸ rfl) place same).eq

/-- Documents do not depend on the place. -/
theorem node_eq_ok_iff_of_sameTargets {cap remaining : Nat} {document : Members}
    (same : Trail.SameTargets bindings schema trail trail') :
    node (follow bindings cap remaining) inField trail schema = .ok document ↔
      node (follow bindings cap remaining) inField trail' schema = .ok document :=
  (moves_node (R := fun _ _ => True) (fun _ _ => trivial) trivial same).eq_ok_iff

theorem node_eq_ok_iff_of_visited {cap remaining : Nat} {document : Members}
    (same : trail'.visited = trail.visited) :
    node (follow bindings cap remaining) inField trail' schema = .ok document ↔
      node (follow bindings cap remaining) inField trail schema = .ok document :=
  node_eq_ok_iff_of_sameTargets fun _ _ => Trail.contains_congr same _

theorem node_enter_eq_ok_iff {cap remaining : Nat} {document : Members} (step : LocationStep) :
    node (follow bindings cap remaining) inField (trail.enter step) schema = .ok document ↔
      node (follow bindings cap remaining) inField trail schema = .ok document :=
  node_eq_ok_iff_of_visited (Trail.enter_visited trail step)

/-- Nodes that the schema avoids may be on the trail or not. -/
theorem node_eq_of_avoids {cap remaining : Nat} {nodes : List Identity}
    (avoids : schema.Avoids bindings nodes) (place : trail'.location = trail.location)
    (same : trail'.visited = nodes ++ trail.visited) :
    node (follow bindings cap remaining) inField trail' schema =
      node (follow bindings cap remaining) inField trail schema :=
  node_eq_of_sameTargets place (.of_avoids (by rwa [List.append_nil]) same rfl)

theorem node_eq_ok_iff_of_agree {cap remaining : Nat} {document : Members}
    (same : Trail.Agree bindings schema trail trail') :
    node (follow bindings cap remaining) inField trail schema = .ok document ↔
      node (follow bindings cap remaining) inField trail' schema = .ok document :=
  node_eq_ok_iff_of_sameTargets same.sameTargets

end Projection

end SchemaDoc
