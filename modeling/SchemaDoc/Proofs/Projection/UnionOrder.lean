import SchemaDoc.Proofs.Json.FromText
import SchemaDoc.Proofs.Projection.Collapse
import SchemaDoc.Proofs.Projection.Discriminators
import SchemaDoc.Proofs.Projection.NamedOnce

/-!
# The order of the members of a union

The members of a union are looked at one after the other: for an enumeration up to the first that
is no literal of the type, of documents that are alike the first one is kept, and the properties of
the first document are searched for a discriminator. All the same, members in another order only
give the arms, or the values, in another order.
-/
namespace SchemaDoc

namespace Json

variable {value other : Json}

theorem Matches.symm (h : value.Matches other) : other.Matches value where
  alike := alike_of_key_eq (key_eq_of_alike h.alike h.left h.right).symm
  left := h.right
  right := h.left

theorem Matches.trans {further : Json} (h : value.Matches other) (h' : other.Matches further) :
    value.Matches further where
  alike := alike_of_key_eq ((key_eq_of_alike h.alike h.left h.right).trans
    (key_eq_of_alike h'.alike h'.left h'.right))
  left := h.left
  right := h'.right

end Json

/-- What is written over documents that match leaves them alike. -/
theorem Annotations.alike_overlay (notes : Annotations) {one two : Members}
    (h : (Json.object one).Matches (.object two)) :
    (Json.object (notes.overlay one)).Alike (.object (notes.overlay two)) := by
  have writes : notes.writes.names.Nodup := by
    simp only [Annotations.writes]
    cases notes.published.title <;> cases notes.published.description <;> split <;>
      simp [Members.names, Members.ofOption]
  rw [overlay_eq_putAll, overlay_eq_putAll]
  apply (Json.alike_object_iff (Members.nodup_names_putAll h.left.nodup _)
    (Members.nodup_names_putAll h.right.nodup _)).mpr
  intro name
  rw [Members.get?_putAll writes, Members.get?_putAll writes]
  cases notes.writes.get? name with
  | none =>
    rw [Option.none_or, Option.none_or]
    exact Json.rel_get?_of_alike h.alike h.left.nodup h.right.nodup name
  | some value =>
    rw [Option.some_or, Option.some_or]
    exact .some (.refl value)

namespace Alternatives

variable {documents others : List Members}

/-- The document with the given arms, and with the discriminator if there is one. -/
def oneOf (arms : List Json) (told : Option String) : Members :=
  ("oneOf", .array arms) ::
    Members.ofOption "discriminator" (told.map fun name => .object [("propertyName", .string name)])

theorem listed_eq (documents : List Members) :
    listed documents = oneOf (documents.map Json.object) (discriminator? documents) := by
  unfold listed
  cases discriminator? documents <;> rfl

theorem discriminator_oneOf (arms : List Json) (told : Option String) :
    (oneOf arms told).get? "discriminator" =
      told.map fun name => .object [("propertyName", .string name)] := by
  cases told <;> rfl

theorem absent_oneOf (arms : List Json) (told : Option String) {name : String}
    (h : name ∈ ["type", "enum", "properties"]) : (oneOf arms told).get? name = none := by
  simp only [List.mem_cons, List.not_mem_nil, or_false] at h
  rcases h with rfl | rfl | rfl <;> cases told <;> rfl

theorem join_eq (documents : List Members) :
    (∃ only, distinct [] documents = [only] ∧ join documents = only) ∨
      ((distinct [] documents).length ≠ 1 ∧ join documents = listed (distinct [] documents)) := by
  by_cases nonempty : documents = []
  · rw [nonempty]
    exact .inr ⟨by simp [distinct], rfl⟩
  · rcases join_cases nonempty with single | ⟨several, same⟩
    · exact .inl single
    · exact .inr ⟨by omega, same⟩

/-! ## Documents in another order -/

theorem mem_keys_distinct_iff {key : String} :
    key ∈ (distinct [] documents).map (fun document => (Json.object document).key) ↔
      key ∈ documents.map fun document => (Json.object document).key := by
  constructor
  · intro mem
    obtain ⟨document, hdocument, rfl⟩ := List.mem_map.mp mem
    exact List.mem_map_of_mem ((distinct_sublist [] documents).subset hdocument)
  · intro mem
    obtain ⟨document, hdocument, rfl⟩ := List.mem_map.mp mem
    obtain ⟨kept, hkept, same⟩ := exists_key_of_mem hdocument List.not_mem_nil
    exact List.mem_map.mpr ⟨kept, hkept, same⟩

/-- Of documents in another order, the different ones match those of the first order. -/
theorem exists_arranged (perm : documents.Perm others)
    (valid : ∀ document ∈ documents, (Json.object document).Unambiguous) :
    ∃ arranged, List.Forall₂ (fun one two => (Json.object one).Matches (.object two))
      (distinct [] documents) arranged ∧ arranged.Perm (distinct [] others) := by
  have nodup : ∀ documents : List Members,
      ((distinct [] documents).map fun document => (Json.object document).key).Nodup :=
    fun documents => List.pairwise_map.mpr (pairwise_distinct [] documents)
  have keys : ((distinct [] documents).map fun document => (Json.object document).key).Perm
      ((distinct [] others).map fun document => (Json.object document).key) := by
    apply (List.perm_ext_iff_of_nodup (nodup documents) (nodup others)).mpr
    intro key
    rw [mem_keys_distinct_iff, mem_keys_distinct_iff]
    exact (perm.map _).mem_iff
  have each : List.Forall₂ (fun key document => (Json.object document).key = key)
      ((distinct [] others).map fun document => (Json.object document).key) (distinct [] others) := by
    rw [List.forall₂_map_left_iff]
    exact List.forall₂_same.mpr fun _ _ => rfl
  obtain ⟨arranged, same, arrangedPerm⟩ := List.perm_comp_forall₂ keys each
  rw [List.forall₂_map_left_iff] at same
  refine ⟨arranged, (forall₂_mem_both same).imp fun one two h => ?_, arrangedPerm⟩
  have here := (distinct_sublist [] documents).subset h.1.1
  have there := (distinct_sublist [] others).subset (arrangedPerm.mem_iff.mp h.2)
  exact ⟨Json.alike_of_key_eq h.1.2.symm, valid one here, valid two (perm.mem_iff.mpr there)⟩

theorem discriminator?_eq_of_arranged {arranged : List Members}
    (same : List.Forall₂ (fun one two => (Json.object one).Matches (.object two)) documents arranged)
    (perm : arranged.Perm others) : discriminator? documents = discriminator? others := by
  have valid : ∀ document ∈ documents, (Json.object document).Unambiguous := by
    intro document mem
    obtain ⟨_, -, matching⟩ := exists_of_mem_right same.flip mem
    exact matching.left
  have valid' : ∀ document ∈ arranged, (Json.object document).Unambiguous := by
    intro document mem
    obtain ⟨_, -, matching⟩ := exists_of_mem_right same mem
    exact matching.right
  have valid'' : ∀ document ∈ others, (Json.object document).Unambiguous :=
    fun document mem => valid' document (perm.mem_iff.mpr mem)
  apply Option.ext
  intro name
  rw [discriminator?_eq_some_iff valid, discriminator?_eq_some_iff valid'']
  constructor
  · exact fun h => (h.of_matches same).perm perm valid'
  · exact fun h => (h.perm perm.symm valid'').of_matches (same.flip.imp fun _ _ => Json.Matches.symm)

/-- How the document of a union may change with the order of its members. Annotations are written
over it either way. -/
inductive Reordered (notes : Annotations) : Members → Members → Prop
  /-- Enumerations of the same values. -/
  | enumeration (scalar : String) {values values' : List Json} : values.Perm values' →
      Reordered notes (notes.overlay [("type", .string scalar), ("enum", .array values)])
        (notes.overlay [("type", .string scalar), ("enum", .array values')])
  /-- One document, up to the order of members of objects. -/
  | single {one two : Members} : (Json.object one).Alike (.object two) → Reordered notes one two
  /-- Lists of the same arms, told apart by the same property if they are. -/
  | listed {arms arranged arms' : List Json} (told : Option String) :
      List.Forall₂ Json.Alike arms arranged → arranged.Perm arms' →
      Reordered notes (notes.overlay (oneOf arms told)) (notes.overlay (oneOf arms' told))

theorem reordered_enumeration (notes : Annotations) (scalar : String) {values values' : List Json}
    (perm : values.Perm values') :
    Reordered notes (notes.overlay (enumeration scalar values))
      (notes.overlay (enumeration scalar values')) := by
  unfold enumeration
  split
  · exact .single (.refl _)
  · exact .enumeration scalar perm

theorem reordered_join (notes : Annotations) (perm : documents.Perm others)
    (valid : ∀ document ∈ documents, (Json.object document).Unambiguous) :
    Reordered notes (notes.overlay (join documents)) (notes.overlay (join others)) := by
  obtain ⟨arranged, same, arrangedPerm⟩ := exists_arranged perm valid
  have length : (distinct [] documents).length = (distinct [] others).length :=
    same.length_eq.trans arrangedPerm.length_eq
  rcases join_eq documents with ⟨only, single, one⟩ | ⟨several, one⟩
  · rcases join_eq others with ⟨only', single', two⟩ | ⟨several', -⟩
    · rw [single] at same
      rw [single'] at arrangedPerm
      rw [List.perm_singleton.mp arrangedPerm] at same
      rw [one, two]
      exact .single (notes.alike_overlay (List.forall₂_cons.mp same).1)
    · rw [← length, single] at several'
      exact absurd rfl several'
  · rcases join_eq others with ⟨only', single', -⟩ | ⟨-, two⟩
    · rw [length, single'] at several
      exact absurd rfl several
    · rw [one, two, listed_eq, listed_eq, ← discriminator?_eq_of_arranged same arrangedPerm]
      apply Reordered.listed _ _ (arrangedPerm.map Json.object)
      rw [List.forall₂_map_left_iff, List.forall₂_map_right_iff]
      exact same.imp fun _ _ matching => matching.alike

end Alternatives

namespace Projection

variable {bindings : Bindings} {cap remaining : Nat} {inField : Bool} {trail : Trail}
  {members members' : List Schema}

theorem counts_eq_of_perm (perm : members.Perm members') :
    counts inField members' = counts inField members := by
  funext member
  rw [counts, counts, perm.any_eq]

/-- Members that are no enumeration are none in another order, unless one of them fails. -/
theorem literalEnum_eq_none_of_perm {counted counted' : List Schema} (perm : counted.Perm counted')
    {location : Location} {follow : Trail → Reference Schema → Outcome}
    (each : ∀ member ∈ counted', ∃ document, node follow false trail member = .ok document)
    (h : Alternatives.literalEnum location (counted.map Schema.literal?) = .ok none) :
    Alternatives.literalEnum location (counted'.map Schema.literal?) = .ok none := by
  cases again : Alternatives.literalEnum location (counted'.map Schema.literal?) with
  | error error => exact absurd again (literalEnum_ne_error each)
  | ok found =>
    cases found with
    | none => rfl
    | some document =>
      -- What is an enumeration in this order is one in the other order too.
      obtain ⟨_, _, _, -, back, -⟩ := Alternatives.literalEnum_perm (perm.symm.map _) again
      rw [h] at back
      cases back

/-- A union whose members come in another order has a document as well, in which only the order
may differ. -/
theorem exists_reordered (perm : members.Perm members') {identity identity' : Identity}
    (apart : ∀ member ∈ members, ∀ inner, Reachable bindings member inner →
      inner.identity ≠ .unshared → inner.identity ≠ identity ∧ inner.identity ≠ identity')
    (valid : ∀ member ∈ members, member.ValuesUnambiguous bindings) {notes : Annotations}
    {one : Members} (h : node (follow bindings cap remaining) inField trail
      (.node identity (.union members) notes) = .ok one) :
    ∃ two, node (follow bindings cap remaining) inField trail
        (.node identity' (.union members') notes) = .ok two ∧
      Alternatives.Reordered notes one two := by
  obtain ⟨made, rfl, ways⟩ := (node_union_eq_ok_iff identity notes).mp h
  have counted : (members.filter (counts inField members)).Perm
      (members'.filter (counts inField members')) := by
    rw [counts_eq_of_perm perm]
    exact perm.filter _
  rcases ways with found | ⟨found, documents, hdocuments, rfl⟩
  · obtain ⟨scalar, values, values', rfl, found', hvalues⟩ :=
      Alternatives.literalEnum_perm (counted.map Schema.literal?) found
    refine ⟨_, (node_union_eq_ok_iff identity' notes).mpr ⟨_, rfl, .inl found'⟩, ?_⟩
    exact Alternatives.reordered_enumeration notes scalar hvalues
  · obtain ⟨documents', hdocuments', hperm⟩ := List.perm_comp_forall₂ counted.symm hdocuments
    have each : List.Forall₂ (fun member document =>
        node (follow bindings cap remaining) false (trail.visit identity') member = .ok document)
        (members'.filter (counts inField members')) documents' := by
      refine (forall₂_mem hdocuments').imp fun member document h => ?_
      have mem := (List.mem_filter.mp (counted.mem_iff.mpr h.1)).1
      exact (node_eq_ok_iff_of_agree (Trail.Agree.visit_apart (apart member mem) trail)).mp h.2
    have made : ∀ member ∈ members'.filter (counts inField members'), ∃ document,
        node (follow bindings cap remaining) false (trail.visit identity') member = .ok document := by
      intro member mem
      obtain ⟨document, -, hdocument⟩ := exists_of_mem_right each.flip mem
      exact ⟨document, hdocument⟩
    have found' := literalEnum_eq_none_of_perm counted made found
    refine ⟨_, (node_union_eq_ok_iff identity' notes).mpr
      ⟨_, rfl, .inr ⟨found', documents', each, rfl⟩⟩, ?_⟩
    apply Alternatives.reordered_join notes hperm.symm
    intro document mem
    obtain ⟨member, hmember, hdocument⟩ := exists_of_mem_right hdocuments mem
    exact unambiguous_of_node (valid member (List.mem_filter.mp hmember).1) hdocument

/-- The order of the members of a union only shows as the order of the arms, or of the values: in
any place, with the same annotations, both unions have a document or none has. References may lead
from the members anywhere but back to the union itself. -/
theorem union_order (perm : members.Perm members') (identity identity' : Identity)
    (apart : ∀ member ∈ members, ∀ inner, Reachable bindings member inner →
      inner.identity ≠ .unshared → inner.identity ≠ identity ∧ inner.identity ≠ identity')
    (valid : ∀ member ∈ members, member.ValuesUnambiguous bindings) (notes : Annotations)
    (cap remaining : Nat) (inField : Bool) (trail : Trail) :
    ((∃ one, node (follow bindings cap remaining) inField trail
        (.node identity (.union members) notes) = .ok one) ↔
      ∃ two, node (follow bindings cap remaining) inField trail
        (.node identity' (.union members') notes) = .ok two) ∧
    ∀ one two,
      node (follow bindings cap remaining) inField trail (.node identity (.union members) notes) =
        .ok one →
      node (follow bindings cap remaining) inField trail (.node identity' (.union members') notes) =
        .ok two →
      Alternatives.Reordered notes one two := by
  refine ⟨⟨?_, ?_⟩, ?_⟩
  · rintro ⟨one, h⟩
    obtain ⟨two, h', -⟩ := exists_reordered perm apart valid h
    exact ⟨two, h'⟩
  · rintro ⟨two, h⟩
    have apart' : ∀ member ∈ members', ∀ inner, Reachable bindings member inner →
        inner.identity ≠ .unshared → inner.identity ≠ identity' ∧ inner.identity ≠ identity :=
      fun member mem inner reached unshared =>
        (apart member (perm.mem_iff.mpr mem) inner reached unshared).symm
    obtain ⟨one, h', -⟩ := exists_reordered perm.symm apart'
      (fun member mem => valid member (perm.mem_iff.mpr mem)) h
    exact ⟨one, h'⟩
  · intro one two h h'
    obtain ⟨two', h'', reordered⟩ := exists_reordered perm apart valid h
    rw [Except.ok.inj (h'.symm.trans h'')]
    exact reordered

/-! ## A tree in two orders -/

def leafKind : Schema := .make (.step 1) (.literal (.string "leaf"))

def branchKind : Schema := .make (.step 2) (.literal (.string "branch"))

def nextBranch : Schema := .make (.step 3) (.recursive (.slot "branch"))

def leaf : Schema := .make (.step 4) (.struct [⟨"kind", leafKind, false⟩] none)

/-- A branch leads to another one, and so to itself. -/
def branch : Schema :=
  .make (.step 5) (.struct [⟨"kind", branchKind, false⟩, ⟨"next", nextBranch, true⟩] none)

def branches : Bindings := [("branch", branch)]

/-- The nodes of the tree. -/
def treeNodes : List Schema := [leaf, leafKind, branch, branchKind, nextBranch]

theorem mem_treeNodes {member inner : Schema} (mem : member ∈ [leaf, branch])
    (reached : Reachable branches member inner) : inner ∈ treeNodes := by
  apply mem_of_reachable _ _ _ reached
  · simp [treeNodes, leaf, leafKind, branch, branchKind, nextBranch, Schema.make, Schema.shape,
      Shape.parts]
  · simp [treeNodes, leaf, leafKind, branch, branchKind, nextBranch, Schema.make, Schema.shape,
      Reference.resolve, branches]
  · have both : ∀ member ∈ [leaf, branch], member ∈ treeNodes := by simp [treeNodes]
    exact both member mem

theorem union_order_tree :
    ∃ one two,
      node (follow branches 10 10) false .start (.node (.step 6) (.union [leaf, branch]) .none) =
        .ok one ∧
      node (follow branches 10 10) false .start (.node (.step 7) (.union [branch, leaf]) .none) =
        .ok two ∧
      Alternatives.Reordered .none one two := by
  have apart : ∀ member ∈ [leaf, branch], ∀ inner, Reachable branches member inner →
      inner.identity ≠ .unshared → inner.identity ≠ .step 6 ∧ inner.identity ≠ .step 7 := by
    intro member mem inner reached _
    have each : ∀ inner ∈ treeNodes, inner.identity ≠ .step 6 ∧ inner.identity ≠ .step 7 := by
      simp [treeNodes, leaf, leafKind, branch, branchKind, nextBranch, Schema.make, Schema.identity]
    exact each inner (mem_treeNodes mem reached)
  have valid : ∀ member ∈ [leaf, branch], member.ValuesUnambiguous branches := by
    intro member mem
    have bare : ∀ inner ∈ treeNodes,
        (∀ base constraints, inner.shape ≠ .refinement base constraints) ∧
          inner.notes.examples = [] := by
      simp [treeNodes, leaf, leafKind, branch, branchKind, nextBranch, Schema.make, Schema.shape,
        Schema.notes, Annotations.none]
    exact .of_bare fun inner reached => bare inner (mem_treeNodes mem reached)
  have both := union_order (.swap branch leaf []) (.step 6) (.step 7) apart valid .none 10 10 false
    .start
  exact ⟨_, _, rfl, rfl, both.2 _ _ rfl rfl⟩

end Projection

end SchemaDoc
