import SchemaDoc.Proofs.Projection.Depth
import SchemaDoc.Proofs.Projection.Plain
import Mathlib.Data.List.Chain

/-!
# Shared nodes

A node may be used in many places without being part of itself. In a graph where no node leads
back to itself and every reference has a target, plain recursion ends, and the guards of the
projection are never seen: with a cap that allows the references on any one path, the two agree
error for error and document for document. Plain recursion has no stubs, so every use of a shared
node is projected in full.
-/
namespace SchemaDoc

namespace Graph

/-- No node leads back to itself. -/
def Acyclic (graph : Graph) : Prop :=
  ∀ schema inner, Reachable graph.bindings graph.root schema →
    Relation.TransGen (Step graph.bindings) schema inner → ¬ schema.SameNode inner

/-- Every reference has a target. -/
def Resolved (graph : Graph) : Prop :=
  ∀ schema reference, Reachable graph.bindings graph.root schema →
    schema.shape = .recursive reference → ∃ target, reference.resolve graph.bindings = .ok target

/-- No path from the root has more references on it than the cap. -/
def ReferencesWithin (graph : Graph) (cap : Nat) : Prop :=
  ∀ path, List.IsChain (Step graph.bindings) (graph.root :: path) →
    (graph.root :: path).countP Schema.isReference ≤ cap

end Graph

/-- All paths that begin with a schema have at most some number of references. -/
def Schema.ReferencesWithin (bindings : Bindings) (schema : Schema) (count : Nat) : Prop :=
  ∀ path, List.IsChain (Step bindings) (schema :: path) →
    (schema :: path).countP Schema.isReference ≤ count

namespace Schema.ReferencesWithin

variable {bindings : Bindings} {schema inner : Schema} {count : Nat}

theorem of_step (h : schema.ReferencesWithin bindings count) (step : Step bindings schema inner) :
    inner.ReferencesWithin bindings count := by
  intro path chain
  have whole := h (inner :: path) (.cons_cons step chain)
  rw [List.countP_cons] at whole
  exact (Nat.le_add_right _ _).trans whole

/-- Past a reference there is one reference less. -/
theorem of_target (h : schema.ReferencesWithin bindings (count + 1))
    (isReference : schema.isReference = true) (step : Step bindings schema inner) :
    inner.ReferencesWithin bindings count := by
  intro path chain
  have whole := h (inner :: path) (.cons_cons step chain)
  rw [List.countP_cons_of_pos isReference] at whole
  exact Nat.le_of_succ_le_succ whole

/-- A bound for everything one step further is one for the schema, which may add itself. -/
theorem of_steps (h : ∀ inner, Step bindings schema inner → inner.ReferencesWithin bindings count) :
    schema.ReferencesWithin bindings (count + if schema.isReference then 1 else 0) := by
  intro path chain
  rw [List.countP_cons]
  cases path with
  | nil => simp
  | cons inner rest =>
    rw [List.isChain_cons_cons] at chain
    exact Nat.add_le_add_right (h inner chain.1 rest chain.2) _

theorem mono {more : Nat} (h : schema.ReferencesWithin bindings count) (le : count ≤ more) :
    schema.ReferencesWithin bindings more :=
  fun path chain => (h path chain).trans le

theorem pos (h : schema.ReferencesWithin bindings count)
    (isReference : schema.isReference = true) : 0 < count := by
  have own := h [] (.singleton _)
  rw [List.countP_cons_of_pos isReference] at own
  omega

end Schema.ReferencesWithin

/-- Where a traversal of a graph stands that will meet no node again: the nodes of the path come
from the root and lead to the schema, from which paths have a limited number of references. -/
structure Graph.Heading (graph : Graph) (room : Nat) (path : List Schema) (schema : Schema) :
    Prop where
  reached : Reachable graph.bindings graph.root schema
  leads : ∀ other ∈ path, Reachable graph.bindings graph.root other ∧
    Relation.TransGen (Step graph.bindings) other schema
  within : schema.ReferencesWithin graph.bindings room

namespace Graph.Heading

variable {graph : Graph} {room : Nat} {path : List Schema} {schema inner : Schema}

theorem root (h : graph.ReferencesWithin room) : graph.Heading room [] graph.root where
  reached := .refl
  leads := by
    intro other mem
    cases mem
  within := h

theorem leads_step (h : graph.Heading room path schema) (step : Step graph.bindings schema inner) :
    ∀ other ∈ schema :: path, Reachable graph.bindings graph.root other ∧
      Relation.TransGen (Step graph.bindings) other inner := by
  intro other mem
  rcases List.mem_cons.mp mem with rfl | mem
  · exact ⟨h.reached, .single step⟩
  · exact ⟨(h.leads other mem).1, (h.leads other mem).2.tail step⟩

theorem part (h : graph.Heading room path schema) (part : schema.shape.Part inner) :
    graph.Heading room (schema :: path) inner where
  reached := h.reached.tail (.part part)
  leads := h.leads_step (.part part)
  within := h.within.of_step (.part part)

theorem target (h : graph.Heading (room + 1) path schema) (isReference : schema.isReference = true)
    (step : Step graph.bindings schema inner) : graph.Heading room (schema :: path) inner where
  reached := h.reached.tail step
  leads := h.leads_step step
  within := h.within.of_target isReference step

/-- In an acyclic graph nothing is met on the way to itself. -/
theorem not_onPath (h : graph.Heading room path schema) (acyclic : graph.Acyclic) :
    ¬ Visit.OnPath path schema := by
  rintro ⟨other, mem, same⟩
  exact acyclic other schema (h.leads other mem).1 (h.leads other mem).2 same

end Graph.Heading

namespace Graph.Heading

variable {graph : Graph} {room : Nat} {path : List Schema} {schema : Schema}

/-- If plain recursion ends at the targets of references, it ends at every schema: the rest is a
tree. -/
theorem unfolds_of_targets (resolved : graph.Resolved)
    (targets : ∀ {path schema reference target}, graph.Heading room path schema →
      schema.shape = .recursive reference → reference.resolve graph.bindings = .ok target →
        target.Unfolds graph.bindings)
    (heading : graph.Heading room path schema) : schema.Unfolds graph.bindings := by
  induction schema using Schema.induction_on_parts generalizing path with
  | node identity shape notes ih =>
    refine .intro (fun reference => resolved _ reference heading.reached) ?_
    intro inner step
    cases step with
    | part part => exact ih inner part (heading.part part)
    | target hshape hresolve => exact targets heading hshape hresolve

theorem unfolds (resolved : graph.Resolved) (heading : graph.Heading room path schema) :
    schema.Unfolds graph.bindings := by
  induction room generalizing path schema with
  | zero =>
    refine unfolds_of_targets resolved ?_ heading
    intro _ schema reference target heading hshape _
    have pos := heading.within.pos (Schema.isReference_of_shape hshape)
    exact absurd pos (Nat.lt_irrefl 0)
  | succ room ih =>
    refine unfolds_of_targets resolved ?_ heading
    intro _ schema reference target heading hshape hresolve
    exact ih (heading.target (Schema.isReference_of_shape hshape) (.target hshape hresolve))

end Graph.Heading

namespace Projection

variable {graph : Graph} {cap room : Nat}

/-- If references are followed as in plain recursion, trees are projected as in plain recursion. -/
theorem plain_eq_of_follow {follow : Trail → Reference Schema → Outcome}
    (following : ∀ {trail path schema reference target}, graph.Heading room path schema →
      trail.Follows (schema :: path) → schema.shape = .recursive reference →
      reference.resolve graph.bindings = .ok target → ∀ unfolds,
        plain graph.bindings target unfolds false trail.location = follow trail reference)
    {inField : Bool} {trail : Trail} {path : List Schema} {schema : Schema}
    (heading : graph.Heading room path schema) (follows : trail.Follows path)
    (unfolds : schema.Unfolds graph.bindings) :
    plain graph.bindings schema unfolds inField trail.location =
      node follow inField trail schema := by
  induction schema using Schema.induction_on_parts generalizing inField trail path with
  | node identity shape notes ih =>
    let schema : Schema := .node identity shape notes
    have entered : (trail.visit identity).Follows (schema :: path) := follows.visit schema
    refine plain_eq_of_steps ?_ ?_ unfolds
    · intro inner part unfolds inField' trail' same
      exact ih inner part (heading.part part) (entered.of_visited same) unfolds
    · intro reference target hshape hresolve unfolds
      exact following heading entered hshape hresolve unfolds

/-- The guards are not seen at any schema of an acyclic graph: what is on the trail leads to the
schema and so is not met again, and the cap allows all references that are still to come. -/
theorem plain_eq_node (acyclic : graph.Acyclic) {inField : Bool} {trail : Trail}
    {path : List Schema} {schema : Schema} (heading : graph.Heading room path schema)
    (follows : trail.Follows path) (unfolds : schema.Unfolds graph.bindings) :
    plain graph.bindings schema unfolds inField trail.location =
      node (follow graph.bindings cap room) inField trail schema := by
  induction room generalizing inField trail path schema with
  | zero =>
    refine plain_eq_of_follow ?_ heading follows unfolds
    intro _ _ schema reference target heading _ hshape _ _
    have pos := heading.within.pos (Schema.isReference_of_shape hshape)
    exact absurd pos (Nat.lt_irrefl 0)
  | succ room ih =>
    refine plain_eq_of_follow ?_ heading follows unfolds
    intro trail path schema reference target heading entered hshape hresolve unfolds
    have heading' : graph.Heading room (schema :: path) target :=
      heading.target (Schema.isReference_of_shape hshape) (.target hshape hresolve)
    have notContained : ¬ trail.contains target.identity = true := fun h =>
      heading'.not_onPath acyclic ((entered.contains_iff target).mp h)
    simp only [follow, hresolve, if_neg notContained]
    exact ih heading' entered unfolds

end Projection

namespace Graph

/-- In an acyclic graph in which every reference has a target, plain recursion ends, and with a cap
that allows the references on any one path the projection has the same result. -/
theorem project_eq_plain (graph : Graph) (options : ProjectionOptions) (acyclic : graph.Acyclic)
    (resolved : graph.Resolved) (within : graph.ReferencesWithin options.maxDepth) :
    ∃ unfolds : graph.root.Unfolds graph.bindings,
      graph.project options = do
        let document ← Projection.plain graph.bindings graph.root unfolds false []
        return options.headed document := by
  have heading : graph.Heading options.maxDepth [] graph.root := .root within
  refine ⟨heading.unfolds resolved, ?_⟩
  have h : Projection.plain graph.bindings graph.root (heading.unfolds resolved) false [] =
      Projection.document graph.bindings options.maxDepth graph.root :=
    Projection.plain_eq_node acyclic heading Trail.Follows.start _
  rw [project_eq, h]

/-! ## A shared node -/

/-- Nodes whose numbers go down at each step make an acyclic graph. -/
theorem acyclic_of_rank {graph : Graph} (rank : Identity → Nat)
    (down : ∀ schema inner, Reachable graph.bindings graph.root schema →
      Step graph.bindings schema inner → rank inner.identity < rank schema.identity) :
    graph.Acyclic := by
  intro schema inner reached steps same
  have smaller : ∀ other, Relation.TransGen (Step graph.bindings) schema other →
      rank other.identity < rank schema.identity := by
    intro other steps
    induction steps with
    | single step => exact down schema _ reached step
    | tail steps step ih =>
      exact (down _ _ (reached.trans steps.to_reflTransGen) step).trans ih
  have less := smaller inner steps
  rw [same.1] at less
  exact absurd less (Nat.lt_irrefl _)

def city : Schema := .node (.step 0) (.primitive .string) .none

def address : Schema := .node (.step 1) (.struct [⟨"city", city, false⟩] none) .none

def home : Schema := .node (.step 2) (.recursive (.slot "Address")) .none

/-- An address that is used twice through one reference, and once directly. -/
def diamond : Graph where
  bindings := [("Address", address)]
  root := .node (.step 3)
    (.struct [⟨"home", home, false⟩, ⟨"work", home, false⟩, ⟨"billing", address, false⟩] none)
    .none

theorem city_step {inner : Schema} : ¬ Step diamond.bindings city inner := by
  intro step
  cases step with
  | part part => cases part
  | target hshape _ => cases hshape

theorem address_step {inner : Schema} (step : Step diamond.bindings address inner) :
    inner = city := by
  cases step with
  | part part =>
    cases part with
    | field mem => exact congrArg Field.node (List.mem_singleton.mp mem)
  | target hshape _ => cases hshape

theorem home_step {inner : Schema} (step : Step diamond.bindings home inner) :
    inner = address := by
  cases step with
  | part part => cases part
  | target hshape resolved =>
    cases hshape
    cases resolved
    rfl

theorem diamond_step {inner : Schema} (step : Step diamond.bindings diamond.root inner) :
    inner = home ∨ inner = address := by
  cases step with
  | part part =>
    cases part with
    | field mem =>
      simp only [List.mem_cons, List.not_mem_nil, or_false] at mem
      rcases mem with rfl | rfl | rfl
      · exact .inl rfl
      · exact .inl rfl
      · exact .inr rfl
  | target hshape _ => cases hshape

theorem diamond_reachable {schema : Schema}
    (reached : Reachable diamond.bindings diamond.root schema) :
    schema = diamond.root ∨ schema = home ∨ schema = address ∨ schema = city := by
  induction reached with
  | refl => exact .inl rfl
  | tail _ step ih =>
    rcases ih with rfl | rfl | rfl | rfl
    · rcases diamond_step step with rfl | rfl
      · exact .inr (.inl rfl)
      · exact .inr (.inr (.inl rfl))
    · exact .inr (.inr (.inl (home_step step)))
    · exact .inr (.inr (.inr (address_step step)))
    · exact absurd step city_step

theorem diamond_acyclic : diamond.Acyclic := by
  let rank : Identity → Nat := fun identity =>
    match identity with
    | .step number => number
    | _ => 0
  refine acyclic_of_rank rank fun schema inner reached step => ?_
  rcases diamond_reachable reached with rfl | rfl | rfl | rfl
  · rcases diamond_step step with rfl | rfl
    · decide
    · decide
  · rw [home_step step]
    decide
  · rw [address_step step]
    decide
  · exact absurd step city_step

theorem diamond_resolved : diamond.Resolved := by
  intro schema reference reached hshape
  rcases diamond_reachable reached with rfl | rfl | rfl | rfl
  · cases hshape
  · cases hshape
    exact ⟨address, rfl⟩
  · cases hshape
  · cases hshape

theorem diamond_referencesWithin : diamond.ReferencesWithin 1 := by
  have hcity : city.ReferencesWithin diamond.bindings 0 :=
    .of_steps fun _ step => absurd step city_step
  have haddress : address.ReferencesWithin diamond.bindings 0 :=
    .of_steps fun inner step => address_step step ▸ hcity
  have hhome : home.ReferencesWithin diamond.bindings 1 :=
    .of_steps fun inner step => home_step step ▸ haddress
  have hroot : diamond.root.ReferencesWithin diamond.bindings 1 := by
    refine .of_steps fun inner step => ?_
    rcases diamond_step step with rfl | rfl
    · exact hhome
    · exact haddress.mono (Nat.zero_le 1)
  exact hroot

theorem diamond_eq_plain :
    diamond.Acyclic ∧ diamond.Resolved ∧ diamond.ReferencesWithin 1 ∧
      ∃ unfolds : diamond.root.Unfolds diamond.bindings,
        diamond.project ⟨1, false⟩ =
          Projection.plain diamond.bindings diamond.root unfolds false [] := by
  obtain ⟨unfolds, h⟩ := project_eq_plain diamond ⟨1, false⟩ diamond_acyclic diamond_resolved
    diamond_referencesWithin
  refine ⟨diamond_acyclic, diamond_resolved, diamond_referencesWithin, unfolds, ?_⟩
  rw [h]
  exact bind_pure _

end Graph

end SchemaDoc
