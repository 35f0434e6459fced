import SchemaDoc.Proofs.Projection.Collapse
import SchemaDoc.Proofs.Projection.Composition

/-!
# Members that stand for nothing in a field

That a field may be absent is told by the list of required names. So the members of a union that
stand for nothing are left out where the union is the type of a field, and what remains is projected
as the union of the other members: it is the same enumeration, the same single document or the same
list of arms, and errors have the same locations.
-/
namespace SchemaDoc

namespace Projection

variable {bindings : Bindings} {cap remaining : Nat} {inField inField' : Bool}
  {trail trail' : Trail} {members members' : List Schema}

/-- A union is told by the members that count, in a place where they lead to the same. -/
theorem node_union_eq {union union' : Identity} (notes : Annotations)
    (counted : members'.filter (counts inField' members') =
      members.filter (counts inField members))
    (place : trail'.location = trail.location)
    (same : ∀ member ∈ members.filter (counts inField members),
      Trail.SameTargets bindings member (trail'.visit union') (trail.visit union)) :
    node (follow bindings cap remaining) inField' trail' (.node union' (.union members') notes) =
      node (follow bindings cap remaining) inField trail (.node union (.union members) notes) := by
  have placed : (trail'.visit union').location = (trail.visit union).location := place
  have documents : ∀ alone,
      membersOf (follow bindings cap remaining) (counts inField' members') (trail'.visit union')
          alone 0 members' =
        membersOf (follow bindings cap remaining) (counts inField members) (trail.visit union)
          alone 0 members := by
    intro alone
    rw [membersOf_eq_mapM, membersOf_eq_mapM, counted]
    apply mapM_eq_of_forall₂
    apply List.forall₂_same.mpr
    rintro ⟨member, i⟩ mem
    apply node_eq_of_sameTargets
    · exact related_alternative (R := Eq) (fun h _ => h ▸ rfl) placed alone i
    · exact (same member (List.fst_mem_of_mem_zipIdx mem)).of_visited
        (Trail.alternative_visited _ alone i) (Trail.alternative_visited _ alone i)
  simp only [node, shapeOf, counted, documents, placed]

/-- In a field, the members that do not stand for nothing count, if there are any. -/
theorem filter_counts_field (present : ∃ member ∈ members, member.isVoid = false) :
    members.filter (counts true members) = members.filter fun member => !member.isVoid := by
  obtain ⟨member, mem, occupied⟩ := present
  have others : members.any (fun other => !other.isVoid) = true :=
    List.any_eq_true.mpr ⟨member, mem, by simp [occupied]⟩
  apply List.filter_congr
  intro other _
  simp [counts, others]

theorem filter_counts_of_present (present : ∀ member ∈ members, member.isVoid = false) :
    members.filter (counts inField members) = members := by
  apply List.filter_eq_self.mpr
  intro member mem
  simp [counts, present member mem]

/-- A union as the type of a field has the result of the union of those members that do not stand
for nothing, as long as the members do not lead back to these unions or to the structs with the
field. In the document of a struct the field stands in its place, and is required exactly if it is
not optional. -/
theorem field_of_union_eq (present : ∃ member ∈ members, member.isVoid = false)
    (union union' struct struct' : Identity)
    (avoids : ∀ member ∈ members, member.Avoids bindings [union, struct, union', struct'])
    (notes : Annotations) (name : String) (cap remaining : Nat) (trail : Trail) :
    node (follow bindings cap remaining) true ((trail.visit struct).enter (.property name))
        (.node union (.union members) notes) =
      node (follow bindings cap remaining) true ((trail.visit struct').enter (.property name))
        (.node union' (.union (members.filter fun member => !member.isVoid)) notes) ∧
    ∀ fields index structNotes inField document optional,
      (fields.map Field.name).Nodup → ⟨name, .node union (.union members) notes, optional⟩ ∈ fields →
      node (follow bindings cap remaining) inField trail
        (.node struct (.struct fields index) structNotes) = .ok document →
      FieldsShown fields (fun field property => node (follow bindings cap remaining) true
        ((trail.visit struct).enter (.property field.name)) field.node = .ok property) document ∧
      ∃ property, node (follow bindings cap remaining) true
          ((trail.visit struct').enter (.property name))
          (.node union' (.union (members.filter fun member => !member.isVoid)) notes) =
            .ok property ∧
        Alternatives.property? document name = some (.object property) := by
  have same : node (follow bindings cap remaining) true
      ((trail.visit struct).enter (.property name)) (.node union (.union members) notes) =
        node (follow bindings cap remaining) true ((trail.visit struct').enter (.property name))
          (.node union' (.union (members.filter fun member => !member.isVoid)) notes) := by
    have all : ∀ member ∈ members.filter fun member => !member.isVoid,
        member.isVoid = false := by
      intro member mem
      simpa using (List.mem_filter.mp mem).2
    refine node_union_eq notes ?_ rfl ?_
    · rw [filter_counts_of_present all, filter_counts_field present]
    · intro member mem
      have among : member ∈ members :=
        (List.mem_filter.mp (List.mem_filter.mp mem).1).1
      have both : [union, struct] ++ [union', struct'] ⊆ [union, struct, union', struct'] :=
        List.Subset.refl _
      exact .of_avoids ((avoids member among).mono both) rfl rfl
  refine ⟨same, ?_⟩
  intro fields index structNotes inField document optional nodup mem h
  have shown := fieldsShown_of_node nodup h
  obtain ⟨property, hproperty, found⟩ := shown.properties _ mem
  exact ⟨shown, property, same ▸ hproperty, found⟩

/-! ## A parcel with a sender -/

def postcode : Schema := .make (.step 1) (.primitive .string)

def forwarding : Schema := .make (.step 2) (.recursive (.slot "agent"))

/-- An agent, who may be reached through another one. -/
def agent : Schema := .make (.step 3) (.struct [⟨"postcode", postcode, false⟩,
  ⟨"through", forwarding, true⟩] none)

def agents : Bindings := [("agent", agent)]

def unknownSender : Schema := .node (.step 4) (.primitive .void)
  { Annotations.none with description := some "Handed in without a name." }

def anonymous : Schema := .make (.step 5) (.primitive .void)

/-- A postcode or an agent, among members that stand for nothing. -/
def senders : List Schema := [unknownSender, postcode, anonymous, forwarding]

def parcel : List (Field Schema) :=
  [⟨"sender", .node (.step 6) (.union senders) .none, true⟩, ⟨"to", postcode, false⟩]

theorem senders_avoid : ∀ member ∈ senders,
    member.Avoids agents [.step 6, .step 7, .step 8, .step 9] := by
  intro member mem
  refine Schema.avoids_of_closed [unknownSender, postcode, anonymous, forwarding, agent] ?_ ?_ ?_
    (List.mem_append_left [agent] mem)
  · simp [unknownSender, postcode, anonymous, forwarding, agent, Schema.make, Schema.shape,
      Shape.parts]
  · simp [unknownSender, postcode, anonymous, forwarding, agent, agents, Schema.make,
      Schema.shape, Reference.resolve]
  · simp [unknownSender, postcode, anonymous, forwarding, agent, Schema.make, Schema.identity]

theorem field_of_union_eq_parcel :
    (∃ member ∈ senders, member.isVoid = false) ∧
      (∀ member ∈ senders, member.Avoids agents [.step 6, .step 7, .step 8, .step 9]) ∧
      (parcel.map Field.name).Nodup ∧
      ∃ document property, node (follow agents 10 10) false .start
          (.node (.step 7) (.struct parcel none) .none) = .ok document ∧
        node (follow agents 10 10) true ((Trail.start.visit (.step 9)).enter (.property "sender"))
          (.node (.step 8) (.union [postcode, forwarding]) .none) = .ok property ∧
        Alternatives.property? document "sender" = some (.object property) := by
  have present : ∃ member ∈ senders, member.isVoid = false :=
    ⟨postcode, by simp [senders], rfl⟩
  have nodup : (parcel.map Field.name).Nodup := by decide
  obtain ⟨-, shown⟩ := field_of_union_eq present (.step 6) (.step 8) (.step 7) (.step 9)
    senders_avoid .none "sender" 10 10 .start
  obtain ⟨-, property, hproperty, found⟩ :=
    shown parcel none .none false _ true nodup List.mem_cons_self rfl
  exact ⟨present, senders_avoid, nodup, _, property, rfl, hproperty, found⟩

end Projection

end SchemaDoc
