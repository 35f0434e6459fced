import Mathlib.Data.List.Forall2
import SchemaDoc.Issue.Basic

/-!
# Issues are the leaves of a failure tree

A leaf is found by choosing a child in each composite on the way down, and the segments of the
wrappers that are entered make its path. The leaves in the order of their choices are listed by
`IssueTree.leaves`; the issues of a tree report them one by one. The path is gathered on the way
down, so what is proved by induction is about a tree under any path.
-/
namespace SchemaDoc

/-- What stands at a leaf. -/
inductive Leaf where
  | typeMismatch (expectation : String) (actual : Option Json)
  | missing (actual : Option Json)
  | refinement (expectation : String) (actual : Option Json)

namespace Leaf

/-- What was expected, unless there is nothing that could be as expected. -/
def expectation : Leaf → Option String
  | typeMismatch expectation _ => some expectation
  | missing _ => none
  | refinement expectation _ => some expectation

def actual : Leaf → Option Json
  | typeMismatch _ actual => actual
  | missing actual => actual
  | refinement _ actual => actual

end Leaf

/-- A leaf with the way to it: the children that are chosen in composites, and the segments of the
wrappers, from the outermost one to the innermost. -/
structure PlacedLeaf where
  choices : List Nat
  path : List String
  leaf : Leaf

namespace PlacedLeaf

/-- The place as it is seen from around a wrapper. -/
def within (segment : String) (place : PlacedLeaf) : PlacedLeaf :=
  { place with path := segment :: place.path }

/-- The place as it is seen from a composite of which it is in a child. -/
def among (i : Nat) (place : PlacedLeaf) : PlacedLeaf :=
  { place with choices := i :: place.choices }

end PlacedLeaf

namespace IssueTree

/-- What stands at a tree that is a leaf. -/
def leaf? : IssueTree → Option Leaf
  | typeMismatch expectation actual => some (.typeMismatch expectation actual)
  | missing actual => some (.missing actual)
  | refinement expectation actual => some (.refinement expectation actual)
  | within _ _ => none
  | composite _ => none

/-- The leaf is found in the tree at its place. -/
inductive LeafAt : IssueTree → PlacedLeaf → Prop
  | leaf {tree : IssueTree} {leaf : Leaf} : tree.leaf? = some leaf → LeafAt tree ⟨[], [], leaf⟩
  | within {segment : String} {inner : IssueTree} {place : PlacedLeaf} :
      LeafAt inner place → LeafAt (.within segment inner) (place.within segment)
  | composite {children : List IssueTree} {i : Nat} {child : IssueTree} {place : PlacedLeaf} :
      children[i]? = some child → LeafAt child place → LeafAt (.composite children) (place.among i)

mutual

/-- The leaves of a tree, from left to right. -/
def leaves : IssueTree → List PlacedLeaf
  | typeMismatch expectation actual => [⟨[], [], .typeMismatch expectation actual⟩]
  | missing actual => [⟨[], [], .missing actual⟩]
  | refinement expectation actual => [⟨[], [], .refinement expectation actual⟩]
  | within segment inner => inner.leaves.map (PlacedLeaf.within segment)
  | composite children => leavesOfAll 0 children

def leavesOfAll (i : Nat) : List IssueTree → List PlacedLeaf
  | [] => []
  | child :: rest => child.leaves.map (PlacedLeaf.among i) ++ leavesOfAll (i + 1) rest

end

/-- What holds of leaves and passes from the inner tree of a wrapper and from the children of a
composite to the whole holds of all trees. -/
theorem induction_on_inner {motive : IssueTree → Prop}
    (leaf : ∀ tree leaf, tree.leaf? = some leaf → motive tree)
    (within : ∀ segment inner, motive inner → motive (.within segment inner))
    (composite : ∀ children, (∀ child ∈ children, motive child) → motive (.composite children))
    (tree : IssueTree) : motive tree := by
  match tree with
  | .typeMismatch expectation actual => exact leaf _ (.typeMismatch expectation actual) rfl
  | .missing actual => exact leaf _ (.missing actual) rfl
  | .refinement expectation actual => exact leaf _ (.refinement expectation actual) rfl
  | .within segment inner =>
    exact within segment inner (induction_on_inner leaf within composite inner)
  | .composite children =>
    exact composite children fun child mem => induction_on_inner leaf within composite child
termination_by sizeOf tree
decreasing_by
  · simp only [IssueTree.within.sizeOf_spec]
    omega
  · have smaller := List.sizeOf_lt_of_mem mem
    simp only [IssueTree.composite.sizeOf_spec]
    omega

theorem leaves_of_leaf? {tree : IssueTree} {leaf : Leaf} (h : tree.leaf? = some leaf) :
    tree.leaves = [⟨[], [], leaf⟩] := by
  cases tree with
  | within => cases h
  | composite => cases h
  | _ =>
    cases h
    rfl

/-! ## The listing is complete and in order -/

theorem mem_leavesOfAll_iff {children : List IssueTree} {i : Nat} {place : PlacedLeaf} :
    place ∈ leavesOfAll i children ↔ ∃ (j : Nat) (child : IssueTree),
      children[j]? = some child ∧ ∃ inner ∈ child.leaves, inner.among (i + j) = place := by
  induction children generalizing i with
  | nil => simp [leavesOfAll]
  | cons first rest ih =>
    have next : ∀ j, i + 1 + j = i + (j + 1) := by omega
    simp only [leavesOfAll, List.mem_append, List.mem_map, ih, next]
    constructor
    · rintro (mem | ⟨j, child, hchild, mem⟩)
      · exact ⟨0, first, rfl, mem⟩
      · exact ⟨j + 1, child, hchild, mem⟩
    · rintro ⟨j, child, hchild, mem⟩
      cases j with
      | zero =>
        cases hchild
        exact .inl mem
      | succ j => exact .inr ⟨j, child, hchild, mem⟩

/-- The leaves of a tree are those that are found in it. -/
theorem mem_leaves_iff (tree : IssueTree) (place : PlacedLeaf) :
    place ∈ tree.leaves ↔ tree.LeafAt place := by
  induction tree using induction_on_inner generalizing place with
  | leaf tree leaf h =>
    rw [leaves_of_leaf? h, List.mem_singleton]
    constructor
    · rintro rfl
      exact .leaf h
    · intro found
      cases found with
      | leaf h' => cases h.symm.trans h'; rfl
      | within => cases h
      | composite => cases h
  | within segment inner ih =>
    rw [leaves, List.mem_map]
    constructor
    · rintro ⟨place, mem, rfl⟩
      exact .within ((ih place).mp mem)
    · intro found
      cases found with
      | leaf h => cases h
      | @within _ _ place found => exact ⟨place, (ih place).mpr found, rfl⟩
  | composite children ih =>
    simp only [leaves, mem_leavesOfAll_iff, Nat.zero_add]
    constructor
    · rintro ⟨j, child, hchild, inner, mem, rfl⟩
      have found := (ih child (List.mem_of_getElem? hchild) inner).mp mem
      exact .composite hchild found
    · intro found
      cases found with
      | leaf h => cases h
      | @composite _ j child inner hchild found =>
        have mem := (ih child (List.mem_of_getElem? hchild) inner).mpr found
        exact ⟨j, child, hchild, inner, mem, rfl⟩

theorem pairwise_leavesOfAll {children : List IssueTree}
    (h : ∀ child ∈ children,
      child.leaves.Pairwise fun place later => place.choices < later.choices) (i : Nat) :
    (leavesOfAll i children).Pairwise fun place later => place.choices < later.choices := by
  induction children generalizing i with
  | nil => exact .nil
  | cons first rest ih =>
    obtain ⟨hfirst, hrest⟩ := List.forall_mem_cons.mp h
    rw [leavesOfAll, List.pairwise_append]
    constructor
    · apply List.pairwise_map.mpr
      apply hfirst.imp
      intro place later before
      exact List.cons_lt_cons_iff.mpr (.inr ⟨rfl, before⟩)
    · refine ⟨ih hrest (i + 1), fun place hplace later hlater => ?_⟩
      obtain ⟨inner, -, rfl⟩ := List.mem_map.mp hplace
      obtain ⟨j, child, -, inner', -, rfl⟩ := mem_leavesOfAll_iff.mp hlater
      have before : i < i + 1 + j := by omega
      exact List.cons_lt_cons_iff.mpr (.inl before)

/-- The leaves are listed in the order of the choices that lead to them. -/
theorem pairwise_leaves (tree : IssueTree) :
    tree.leaves.Pairwise fun place later => place.choices < later.choices := by
  induction tree using induction_on_inner with
  | leaf tree leaf h =>
    rw [leaves_of_leaf? h]
    exact List.pairwise_singleton _ _
  | within segment inner ih => exact List.pairwise_map.mpr ih
  | composite children ih => exact pairwise_leavesOfAll ih 0

end IssueTree

/-! ## Issues -/

/-- An issue says what a leaf says. Its message is the expectation, or a fixed text where nothing
was there or the expectation has nothing but blanks. -/
structure Issue.Reports (issue : Issue) (place : PlacedLeaf) : Prop where
  path : issue.path = place.path
  field : issue.field = if place.path = [] then none else some (".".intercalate place.path)
  value : issue.value = place.leaf.actual
  missing : place.leaf.expectation = none → issue.message = "is missing"
  generic : ∀ text, place.leaf.expectation = some text →
    (∀ c ∈ text.toList, Text.isBlank c = true) → issue.message = "validation failed"
  stated : ∀ text, place.leaf.expectation = some text →
    (∃ c ∈ text.toList, Text.isBlank c = false) → issue.message = text

/-- The issue as it is seen from around wrappers with the segments. -/
def Issue.within (segments : List String) (issue : Issue) : Issue where
  field := fieldOf (segments ++ issue.path)
  message := issue.message
  path := segments ++ issue.path
  value := issue.value

/-- The issue of a leaf in a tree that stands under a path. -/
def PlacedLeaf.issueUnder (path : List String) (place : PlacedLeaf) : Issue :=
  .ofLeaf ((place.leaf.expectation.map Issue.messageOf).getD Issue.missingMessage)
    (path ++ place.path) place.leaf.actual

theorem PlacedLeaf.reports_issue (place : PlacedLeaf) : (place.issueUnder []).Reports place where
  path := rfl
  field := by
    simp only [issueUnder, Issue.ofLeaf, Issue.fieldOf, List.nil_append, List.isEmpty_iff]
  value := rfl
  missing := by
    intro h
    simp [issueUnder, Issue.ofLeaf, h, Issue.missingMessage]
  generic := by
    intro text h blank
    have isBlank : Text.isBlankText text = true := List.all_eq_true.mpr blank
    simp [issueUnder, Issue.ofLeaf, h, Issue.messageOf, isBlank, Issue.genericMessage]
  stated := by
    rintro text h ⟨c, mem, visible⟩
    have notBlank : Text.isBlankText text = false := List.all_eq_false.mpr ⟨c, mem, by simp [visible]⟩
    simp [issueUnder, Issue.ofLeaf, h, Issue.messageOf, notBlank]

theorem PlacedLeaf.issueUnder_eq_within (segments : List String) (place : PlacedLeaf) :
    place.issueUnder segments = (place.issueUnder []).within segments := rfl

namespace IssueTree

theorem issuesOfAll_eq_flatMap (path : List String) (children : List IssueTree) :
    issuesOfAll path children = children.flatMap (issuesUnder path) := by
  induction children with
  | nil => rfl
  | cons child rest ih => rw [issuesOfAll, ih, List.flatMap_cons]

theorem issuesUnder_of_leaf? {tree : IssueTree} {leaf : Leaf} (h : tree.leaf? = some leaf)
    (path : List String) : tree.issuesUnder path = [PlacedLeaf.issueUnder path ⟨[], [], leaf⟩] := by
  cases tree with
  | within => cases h
  | composite => cases h
  | _ =>
    cases h
    simp [issuesUnder, PlacedLeaf.issueUnder, Leaf.expectation, Leaf.actual]

theorem issuesOfAll_eq_map {children : List IssueTree} {path : List String}
    (h : ∀ child ∈ children,
      child.issuesUnder path = child.leaves.map (PlacedLeaf.issueUnder path)) (i : Nat) :
    issuesOfAll path children = (leavesOfAll i children).map (PlacedLeaf.issueUnder path) := by
  induction children generalizing i with
  | nil => rfl
  | cons first rest ih =>
    obtain ⟨hfirst, hrest⟩ := List.forall_mem_cons.mp h
    -- Which child of a composite a leaf is in makes no difference to its issue.
    have chosen : PlacedLeaf.issueUnder path ∘ PlacedLeaf.among i = PlacedLeaf.issueUnder path := rfl
    rw [issuesOfAll, hfirst, ih hrest (i + 1), leavesOfAll, List.map_append, List.map_map, chosen]

/-- The issues of a tree under a path are those of its leaves under the path. -/
theorem issuesUnder_eq_map (tree : IssueTree) (path : List String) :
    tree.issuesUnder path = tree.leaves.map (PlacedLeaf.issueUnder path) := by
  induction tree using induction_on_inner generalizing path with
  | leaf tree leaf h =>
    rw [leaves_of_leaf? h, List.map_singleton]
    exact issuesUnder_of_leaf? h path
  | within segment inner ih =>
    have moved : ∀ place : PlacedLeaf,
        place.issueUnder (path ++ [segment]) = (place.within segment).issueUnder path := by
      intro place
      simp [PlacedLeaf.issueUnder, PlacedLeaf.within]
    rw [issuesUnder, ih, leaves, List.map_map]
    exact List.map_congr_left fun place _ => moved place
  | composite children ih => exact issuesOfAll_eq_map (fun child mem => ih child mem path) 0

theorem issuesUnder_withinAll (segments path : List String) (tree : IssueTree) :
    (tree.withinAll segments).issuesUnder path = tree.issuesUnder (path ++ segments) := by
  induction segments generalizing path with
  | nil => rw [withinAll, List.foldr_nil, List.append_nil]
  | cons segment rest ih =>
    rw [withinAll, List.foldr_cons, issuesUnder]
    exact (ih (path ++ [segment])).trans (by rw [List.append_assoc, List.singleton_append])

/-- The leaves of a tree stand in the order of the ways to them and are all there, and the issues
report them one by one. So wrappers put their segments before the paths of all issues, and a
composite has the issues of its children one after another. -/
theorem issues_report_leaves (tree : IssueTree) :
    (∀ place, place ∈ tree.leaves ↔ tree.LeafAt place) ∧
    (tree.leaves.Pairwise fun place later => place.choices < later.choices) ∧
    List.Forall₂ Issue.Reports tree.issues tree.leaves ∧
    (∀ segments, (tree.withinAll segments).issues = tree.issues.map (Issue.within segments)) ∧
    ∀ children, (composite children).issues = children.flatMap issues := by
  have listed : tree.issues = tree.leaves.map (PlacedLeaf.issueUnder []) :=
    tree.issuesUnder_eq_map []
  refine ⟨tree.mem_leaves_iff, tree.pairwise_leaves, ?_, ?_, ?_⟩
  · rw [listed, List.forall₂_map_left_iff]
    exact List.forall₂_same.mpr fun place _ => place.reports_issue
  · intro segments
    have under : (tree.withinAll segments).issues = tree.issuesUnder segments :=
      issuesUnder_withinAll segments [] tree
    rw [under, issuesUnder_eq_map, listed, List.map_map]
    exact List.map_congr_left fun place _ => place.issueUnder_eq_within segments
  · intro children
    exact issuesOfAll_eq_flatMap [] children

/-- Issues of the same part stay apart, and a null that is there is not the absence of a value. -/
example :
    (within "users" (within "0"
      (composite [missing none, typeMismatch " " (some .null)]))).issues =
    [⟨some "users.0", "is missing", ["users", "0"], none⟩,
      ⟨some "users.0", "validation failed", ["users", "0"], some .null⟩] := rfl

end IssueTree

end SchemaDoc
