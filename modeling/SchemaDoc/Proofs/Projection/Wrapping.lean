import SchemaDoc.Proofs.Projection.Absence
import SchemaDoc.Proofs.Projection.Nesting

/-!
# Types of fields that are wrapped as optional

A schema wrapped as optional is a union of it and of nothing. As the type of a field it has the
document of the schema by itself, so a schema wrapped once does not show. But only the outermost
wrapping is taken off: each further one is an alternative that is nothing at all, `oneOf` with an
empty arm, unless there was nothing to say in the first place. In the same way, members of the
schema that stand for nothing show as soon as it is wrapped.
-/
namespace SchemaDoc

/-! ## Unions as types of fields and by themselves -/

/-- The schema is a union that may be nothing at all, and may be something. -/
def Schema.MayBeVoid (schema : Schema) : Prop :=
  ∃ members, schema.shape = .union members ∧ (∃ member ∈ members, member.isVoid = true) ∧
    ∃ member ∈ members, member.isVoid = false

namespace Projection

variable {bindings : Bindings} {cap remaining : Nat} {trail : Trail} {schema : Schema}
  {document own shown : Members}

theorem filter_counts_self (members : List Schema) :
    members.filter (counts false members) = members :=
  List.filter_eq_self.mpr fun _ _ => rfl

/-- Being the type of a field only matters to unions that may be nothing at all. -/
theorem node_field_eq (definite : ¬ schema.MayBeVoid) (trail : Trail) :
    node (follow bindings cap remaining) true trail schema =
      node (follow bindings cap remaining) false trail schema := by
  obtain ⟨identity, shape, notes⟩ := schema
  cases shape with
  | union members =>
    apply node_union_eq notes _ rfl fun _ _ _ _ => rfl
    rw [filter_counts_self]
    by_cases void : ∃ member ∈ members, member.isVoid = true
    · have none : members.any (fun other => !other.isVoid) = false := by
        rw [List.any_eq_false]
        intro member mem
        by_contra present
        exact definite ⟨members, rfl, void, member, mem, by simpa using present⟩
      exact List.filter_eq_self.mpr fun _ _ => by simp [counts, none]
    · refine filter_counts_of_present fun member mem => ?_
      by_contra other
      exact void ⟨member, mem, by simpa using other⟩
  | _ => rfl

theorem exists_node_of_isVoid {follow : Trail → Reference Schema → Outcome} {inField : Bool}
    (void : schema.isVoid = true) :
    ∃ document, node follow inField trail schema = .ok document :=
  exists_ok_of_not_fails (not_fails_node_of_isVoid void)

theorem exists_node_field_iff (schema : Schema) (trail : Trail) :
    (∃ shown, node (follow bindings cap remaining) true trail schema = .ok shown) ↔
      ∃ own, node (follow bindings cap remaining) false trail schema = .ok own := by
  by_cases mayBeVoid : schema.MayBeVoid
  · obtain ⟨members, hshape, -, present⟩ := mayBeVoid
    obtain ⟨identity, shape, notes⟩ := schema
    obtain rfl : shape = .union members := hshape
    rw [exists_node_union_iff, exists_node_union_iff, filter_counts_self,
      filter_counts_field present]
    constructor
    · intro each member mem
      cases void : member.isVoid with
      | true => exact exists_node_of_isVoid void
      | false => exact each member (List.mem_filter.mpr ⟨mem, by simp [void]⟩)
    · exact fun each member mem => each member (List.mem_filter.mp mem).1
  · rw [node_field_eq mayBeVoid]

section

variable {identity : Identity} {members : List Schema} {notes : Annotations}

/-- By itself, a union with a member that stands for nothing is joined from the documents of all
members. -/
theorem documents_of_void (void : ∃ member ∈ members, member.isVoid = true)
    (h : node (follow bindings cap remaining) false trail (.node identity (.union members) notes) =
      .ok own) :
    ∃ documents, List.Forall₂ (fun member document =>
        node (follow bindings cap remaining) false (trail.visit identity) member = .ok document)
        members documents ∧
      own = notes.overlay (Alternatives.join documents) := by
  obtain ⟨made, rfl, ways⟩ := (node_union_eq_ok_iff identity notes).mp h
  rw [filter_counts_self] at ways
  rcases ways with found | ⟨-, documents, hdocuments, rfl⟩
  · obtain ⟨member, mem, hvoid⟩ := void
    obtain ⟨_, _, -, -, uniform, -⟩ := Alternatives.exists_values_of_literalEnum_eq_some found
    obtain ⟨literal, _, hliteral, -⟩ := uniform _ (List.mem_map_of_mem mem)
    rw [Schema.isVoid, shape_eq_of_literal? hliteral] at hvoid
    cases hvoid
  · exact ⟨documents, hdocuments, rfl⟩

/-- As the type of a field, a union is made of fewer documents than by itself, or is an enumeration
of literals. -/
theorem made_of_field (present : ∃ member ∈ members, member.isVoid = false)
    {documents : List Members} (hdocuments : List.Forall₂ (fun member document =>
      node (follow bindings cap remaining) false (trail.visit identity) member = .ok document)
      members documents)
    (h : node (follow bindings cap remaining) true trail (.node identity (.union members) notes) =
      .ok shown) :
    ∃ made, shown = notes.overlay made ∧
      (Json.object made).depth ≤ (Json.object (Alternatives.join documents)).depth ∧
      (Alternatives.join documents = [] → made = []) := by
  obtain ⟨made, rfl, ways⟩ := (node_union_eq_ok_iff identity notes).mp h
  rw [filter_counts_field present] at ways
  refine ⟨made, rfl, ?_⟩
  rcases ways with found | ⟨-, documents', hdocuments', rfl⟩
  · obtain ⟨scalar, values, rfl, several, uniform, valuesOf⟩ :=
      Alternatives.exists_values_of_literalEnum_eq_some found
    have flat : ∀ value ∈ values, value.depth = 0 := by
      intro value mem
      obtain ⟨literal, -, hvalue⟩ := (valuesOf.mem_iff value).mp mem
      exact Literal.depth_of_toJson? hvalue
    -- The enumeration is no deeper than the document of any one of the literals.
    obtain ⟨literal?, mem⟩ := List.exists_mem_of_length_pos (by omega : 0 <
      ((members.filter fun member => !member.isVoid).map Schema.literal?).length)
    obtain ⟨literal, value, rfl, rfl, hvalue⟩ := uniform literal? mem
    obtain ⟨member, hmember, hliteral⟩ := List.mem_map.mp mem
    have among := mem_of_forall₂_ok hdocuments (List.mem_filter.mp hmember).1
      (node_of_literal hliteral hvalue)
    constructor
    · exact (Alternatives.depth_enumeration_le flat value member.notes).trans
        (Alternatives.depth_le_join among)
    · intro silent
      have each := (Alternatives.join_eq_nil_iff (List.ne_nil_of_mem among)).mp silent
      exact absurd (each _ among) (Alternatives.overlay_enumeration_ne_nil _ _ _)
  · have fewer : documents' ⊆ documents := by
      intro document mem
      obtain ⟨member, hmember, hdocument⟩ := exists_of_mem_right hdocuments' mem
      exact mem_of_forall₂_ok hdocuments (List.mem_filter.mp hmember).1 hdocument
    have some : documents' ≠ [] := by
      rintro rfl
      obtain ⟨member, mem, occupied⟩ := present
      obtain ⟨_, none, -⟩ := exists_of_mem_right hdocuments'.flip
        (List.mem_filter.mpr ⟨mem, by simp [occupied]⟩)
      cases none
    constructor
    · exact Alternatives.depth_join_mono fewer some
    · intro silent
      have each := (Alternatives.join_eq_nil_iff (List.ne_nil_of_mem
        (fewer (List.head_mem some)))).mp silent
      exact (Alternatives.join_eq_nil_iff some).mpr fun document mem => each document (fewer mem)

end

/-- A schema says nothing as the type of a field if it says nothing by itself, and without
annotations it is no deeper. -/
theorem field_of_own
    (hown : node (follow bindings cap remaining) false trail schema = .ok own)
    (hshown : node (follow bindings cap remaining) true trail schema = .ok shown) :
    (own = [] → shown = []) ∧
      ((∀ name ∈ ["title", "description", "examples"], shown.get? name = none) →
        (Json.object shown).depth ≤ (Json.object own).depth) := by
  by_cases mayBeVoid : schema.MayBeVoid
  · obtain ⟨members, hshape, void, present⟩ := mayBeVoid
    obtain ⟨identity, shape, notes⟩ := schema
    obtain rfl : shape = .union members := hshape
    obtain ⟨documents, hdocuments, rfl⟩ := documents_of_void void hown
    obtain ⟨made, rfl, shallow, silent⟩ := made_of_field present hdocuments hshown
    constructor
    · intro nothing
      have absent : ∀ name ∈ ["title", "description", "examples"],
          (notes.overlay (Alternatives.join documents)).get? name = none := by
        rw [nothing]
        exact fun _ _ => rfl
      have bare := notes.overlay_eq_self absent
      rw [bare] at nothing ⊢
      exact silent nothing
    · intro absent
      have bare := notes.overlay_eq_self absent
      rwa [bare, bare]
  · rw [node_field_eq mayBeVoid, hown] at hshown
    obtain rfl := Except.ok.inj hshown
    exact ⟨id, fun _ => Nat.le_refl _⟩

/-- What layers of wrapping make of the document of a schema by itself is what the schema is as the
type of a field only if there is nothing to say, or no layer. -/
theorem iterate_orNothing_eq_iff
    (hown : node (follow bindings cap remaining) false trail schema = .ok own)
    (hshown : node (follow bindings cap remaining) true trail schema = .ok shown) (n : Nat) :
    Alternatives.orNothing^[n] own = shown ↔ own = [] ∨ n = 0 ∧ own = shown := by
  obtain ⟨nothing, shallow⟩ := field_of_own hown hshown
  by_cases said : own = []
  · have silent : Alternatives.orNothing^[n] [] = [] := Function.iterate_fixed rfl n
    simp [said, silent, nothing said]
  · cases n with
    | zero => simp [said]
    | succ n =>
      have layered : Alternatives.orNothing^[n + 1] own ≠ shown := by
        intro same
        have absent : ∀ name ∈ ["title", "description", "examples"], shown.get? name = none := by
          rw [← same, Function.iterate_succ_apply',
            Alternatives.orNothing_of_ne_nil (Alternatives.iterate_orNothing_ne_nil said n)]
          simp [Members.get?, List.lookup_cons]
        have deep := Alternatives.depth_iterate_orNothing said (n + 1)
        have flat := shallow absent
        rw [same] at deep
        omega
      exact iff_of_false layered (by simp [said])

/-! ## Wrapped schemas -/

/-- As the type of a field, a wrapped schema is what the schema is by itself. -/
theorem node_field_optionalOf_eq_ok_iff (wrapper : Identity) (present : schema.isVoid = false) :
    node (follow bindings cap remaining) true trail (.optionalOf wrapper schema) = .ok document ↔
      node (follow bindings cap remaining) false (trail.visit wrapper) schema = .ok document := by
  have counted : ([schema, .make (wrapper.part 1) (.primitive .void)].filter
      fun member => !member.isVoid) = [schema] := by
    rw [List.filter_cons_of_pos (by simp [present])]
    rfl
  rw [Schema.optionalOf, Schema.make, node_union_eq_ok_iff,
    filter_counts_field ⟨schema, List.mem_cons_self, present⟩, counted]
  constructor
  · rintro ⟨made, rfl, found | ⟨-, documents, hdocuments, rfl⟩⟩
    · cases found
    · obtain ⟨own, _, hown, rest, rfl⟩ := List.forall₂_cons_left_iff.mp hdocuments
      cases rest
      exact hown
  · intro h
    exact ⟨document, rfl, .inr ⟨rfl, [document], .cons h .nil, rfl⟩⟩

/-- By itself, a wrapped schema has the alternative of being nothing at all. -/
theorem node_optionalOf_eq_ok_iff (wrapper : Identity) :
    node (follow bindings cap remaining) false trail (.optionalOf wrapper schema) = .ok document ↔
      ∃ own, node (follow bindings cap remaining) false (trail.visit wrapper) schema = .ok own ∧
        document = Alternatives.orNothing own := by
  have void : ∃ member ∈ [schema, .make (wrapper.part 1) (.primitive .void)],
      member.isVoid = true := ⟨_, List.mem_cons_of_mem _ (List.mem_singleton_self _), rfl⟩
  have made : ∀ {document}, node (follow bindings cap remaining) false trail
      (.optionalOf wrapper schema) = .ok document → ∃ own,
        node (follow bindings cap remaining) false (trail.visit wrapper) schema = .ok own ∧
          document = Alternatives.orNothing own := by
    intro document h
    obtain ⟨documents, hdocuments, rfl⟩ := documents_of_void void h
    obtain ⟨own, others, hown, hothers, rfl⟩ := List.forall₂_cons_left_iff.mp hdocuments
    obtain ⟨nothing, none, hnothing, hnone, rfl⟩ := List.forall₂_cons_left_iff.mp hothers
    cases hnothing
    cases hnone
    exact ⟨own, hown, (Annotations.overlay_none _).trans (Alternatives.join_nothing own)⟩
  constructor
  · exact made
  · rintro ⟨own, hown, rfl⟩
    have each : ∀ member ∈ [schema, .make (wrapper.part 1) (.primitive .void)], ∃ document,
        node (follow bindings cap remaining) false (trail.visit wrapper) member = .ok document :=
      List.forall_mem_cons.mpr ⟨⟨own, hown⟩, List.forall_mem_singleton.mpr ⟨[], rfl⟩⟩
    obtain ⟨document, h⟩ := (exists_node_union_iff wrapper .none).mpr
      fun member mem => each member (List.mem_filter.mp mem).1
    obtain ⟨own', hown', rfl⟩ := made h
    rwa [Except.ok.inj (hown.symm.trans hown')]

theorem node_visit_eq {wrapper : Identity} {wrappers : List Identity}
    (avoids : schema.Avoids bindings (wrapper :: wrappers)) :
    node (follow bindings cap remaining) false (trail.visit wrapper) schema =
      node (follow bindings cap remaining) false trail schema := by
  have here : schema.Avoids bindings [wrapper] := avoids.mono (by simp)
  exact node_eq_of_avoids here rfl rfl

/-- By itself, a schema shows each layer of wrapping. -/
theorem node_wrapped_eq_ok_iff {wrappers : List Identity} (avoids : schema.Avoids bindings wrappers) :
    node (follow bindings cap remaining) false trail (wrappers.foldr Schema.optionalOf schema) =
        .ok document ↔
      ∃ own, node (follow bindings cap remaining) false trail schema = .ok own ∧
        document = Alternatives.orNothing^[wrappers.length] own := by
  induction wrappers generalizing trail document with
  | nil => simp
  | cons wrapper wrappers ih =>
    simp only [List.foldr_cons, node_optionalOf_eq_ok_iff, List.length_cons,
      ih (avoids.mono (List.subset_cons_self _ _)), node_visit_eq avoids,
      Function.iterate_succ_apply']
    constructor
    · rintro ⟨_, ⟨own, hown, rfl⟩, rfl⟩
      exact ⟨own, hown, rfl⟩
    · rintro ⟨own, hown, rfl⟩
      exact ⟨_, ⟨own, hown, rfl⟩, rfl⟩

/-- As the type of a field, a wrapped schema shows all layers but one over what it is by itself. -/
theorem node_field_wrapped_eq_ok_iff {wrappers : List Identity} (present : schema.isVoid = false)
    (some : wrappers ≠ []) (avoids : schema.Avoids bindings wrappers) :
    node (follow bindings cap remaining) true trail (wrappers.foldr Schema.optionalOf schema) =
        .ok document ↔
      ∃ own, node (follow bindings cap remaining) false trail schema = .ok own ∧
        document = Alternatives.orNothing^[wrappers.length - 1] own := by
  obtain ⟨wrapper, inner, rfl⟩ := List.exists_cons_of_ne_nil some
  have occupied : (inner.foldr Schema.optionalOf schema).isVoid = false := by
    cases inner with
    | nil => exact present
    | cons _ _ => rfl
  rw [List.foldr_cons, node_field_optionalOf_eq_ok_iff wrapper occupied,
    node_wrapped_eq_ok_iff (avoids.mono (List.subset_cons_self _ _)), node_visit_eq avoids]
  rfl

end Projection

/-! ## A field of an open type -/

/-- A struct in which the type of one field is left open. -/
structure OpenField where
  struct : Identity
  before : List (Field Schema)
  name : String
  optional : Bool
  after : List (Field Schema)
  index : Option Schema
  notes : Annotations
  distinct : (before.map Field.name ++ name :: after.map Field.name).Nodup

namespace OpenField

def fields (place : OpenField) (type : Schema) : List (Field Schema) :=
  place.before ++ ⟨place.name, type, place.optional⟩ :: place.after

/-- The struct with a field of the type. -/
def fill (place : OpenField) (type : Schema) : Schema :=
  .node place.struct (.struct (place.fields type) place.index) place.notes

theorem nodup_fields (place : OpenField) (type : Schema) :
    ((place.fields type).map Field.name).Nodup := by
  simpa [fields] using place.distinct

theorem mem_fields (place : OpenField) (type : Schema) :
    ⟨place.name, type, place.optional⟩ ∈ place.fields type := by
  simp [fields]

theorem required_eq (place : OpenField) (type type' : Schema) :
    ((place.fields type).filter fun field => !field.optional).map Field.name =
      ((place.fields type').filter fun field => !field.optional).map Field.name := by
  simp only [fields, List.filter_append, List.filter_cons]
  split <;> simp

end OpenField

namespace Projection

variable {bindings : Bindings} {cap remaining : Nat} {inField : Bool} {trail : Trail}

theorem exists_node_fill_iff (place : OpenField) {type type' : Schema}
    (same : (∃ property, node (follow bindings cap remaining) true (trail.visit place.struct) type =
        .ok property) ↔
      ∃ property, node (follow bindings cap remaining) true (trail.visit place.struct) type' =
        .ok property) :
    (∃ document, node (follow bindings cap remaining) inField trail (place.fill type) =
        .ok document) ↔
      ∃ document, node (follow bindings cap remaining) inField trail (place.fill type') =
        .ok document := by
  rw [OpenField.fill, OpenField.fill, exists_node_struct_iff, exists_node_struct_iff]
  simp only [OpenField.fields, List.forall_mem_append, List.forall_mem_cons, same]

/-- Wrapping the type of a field as optional does not change whether the struct has a document, nor
which of its fields must be there. But the property of the field shows all layers of wrapping but
one over the document that the schema has by itself: so it is the same as without wrapping exactly
if there is nothing to say, or if there is one layer only and the schema is the same by itself as it
is as the type of a field, which all schemas are but unions that may be nothing at all. -/
theorem wrapped_field_eq_iff (place : OpenField) {schema : Schema} {wrappers : List Identity}
    (present : schema.isVoid = false) (layered : wrappers ≠ [])
    (avoids : schema.Avoids bindings wrappers) (cap remaining : Nat) (inField : Bool)
    (trail : Trail) :
    ((∃ document, node (follow bindings cap remaining) inField trail (place.fill schema) =
        .ok document) ↔
      ∃ document, node (follow bindings cap remaining) inField trail
        (place.fill (wrappers.foldr Schema.optionalOf schema)) = .ok document) ∧
    ∀ one two,
      node (follow bindings cap remaining) inField trail (place.fill schema) = .ok one →
      node (follow bindings cap remaining) inField trail
        (place.fill (wrappers.foldr Schema.optionalOf schema)) = .ok two →
      one.get? "required" = two.get? "required" ∧
      ∃ own shown wrapped, node (follow bindings cap remaining) false
          ((trail.visit place.struct).enter (.property place.name)) schema = .ok own ∧
        Alternatives.property? one place.name = some (.object shown) ∧
        Alternatives.property? two place.name = some (.object wrapped) ∧
        wrapped = Alternatives.orNothing^[wrappers.length - 1] own ∧
        (¬ schema.MayBeVoid → own = shown) ∧
        (wrapped = shown ↔ own = [] ∨ wrappers.length = 1 ∧ own = shown) := by
  constructor
  · apply exists_node_fill_iff
    rw [exists_node_field_iff]
    constructor
    · rintro ⟨own, hown⟩
      exact ⟨_, (node_field_wrapped_eq_ok_iff present layered avoids).mpr ⟨own, hown, rfl⟩⟩
    · rintro ⟨property, h⟩
      obtain ⟨own, hown, -⟩ := (node_field_wrapped_eq_ok_iff present layered avoids).mp h
      exact ⟨own, hown⟩
  · intro one two hone htwo
    constructor
    · rw [get?_required_of_node hone, get?_required_of_node htwo, place.required_eq]
    · obtain ⟨shown, hshown, foundOne⟩ :=
        (fieldsShown_of_node (place.nodup_fields _) hone).properties _ (place.mem_fields _)
      obtain ⟨wrapped, hwrapped, foundTwo⟩ :=
        (fieldsShown_of_node (place.nodup_fields _) htwo).properties _ (place.mem_fields _)
      obtain ⟨own, hown, rfl⟩ := (node_field_wrapped_eq_ok_iff present layered avoids).mp hwrapped
      refine ⟨own, shown, _, hown, foundOne, foundTwo, rfl, ?_, ?_⟩
      · intro definite
        rw [node_field_eq definite] at hshown
        exact Except.ok.inj (hown.symm.trans hshown)
      · rw [iterate_orNothing_eq_iff hown hshown]
        have length : wrappers.length - 1 = 0 ↔ wrappers.length = 1 := by
          have := List.length_pos_iff.mpr layered
          omega
        rw [length]

/-! ## A contact that may be missing twice over -/

def nickname : Schema := .make (.step 1) (.primitive .string)

def contactReference : Schema := .make (.step 2) (.recursive (.slot "contact"))

/-- A contact, from whom another one may be reached. -/
def contact : Schema :=
  .make (.step 3) (.struct [⟨"nickname", nickname, false⟩, ⟨"through", contactReference, true⟩] none)

def contacts : Bindings := [("contact", contact)]

/-- A person, with a contact of an open type. -/
def person : OpenField where
  struct := .step 4
  before := [⟨"name", nickname, false⟩]
  name := "contact"
  optional := true
  after := []
  index := none
  notes := .none
  distinct := by decide

theorem contactReference_avoids : contactReference.Avoids contacts [.step 6, .step 5] := by
  refine Schema.avoids_of_closed [contactReference, contact, nickname] ?_ ?_ ?_ List.mem_cons_self
  · simp [contactReference, contact, nickname, Schema.make, Schema.shape, Shape.parts]
  · simp [contactReference, contact, nickname, contacts, Schema.make, Schema.shape,
      Reference.resolve]
  · simp [contactReference, contact, nickname, Schema.make, Schema.identity]

theorem wrapped_field_eq_iff_contact :
    contactReference.isVoid = false ∧ contactReference.Avoids contacts [.step 6, .step 5] ∧
      ∃ one two shown wrapped,
        node (follow contacts 10 10) false .start (person.fill contactReference) = .ok one ∧
        node (follow contacts 10 10) false .start
          (person.fill ([.step 6, .step 5].foldr Schema.optionalOf contactReference)) = .ok two ∧
        one.get? "required" = two.get? "required" ∧
        Alternatives.property? one "contact" = some (.object shown) ∧
        Alternatives.property? two "contact" = some (.object wrapped) ∧
        wrapped = [("oneOf", .array [.object shown, .object []])] ∧ wrapped ≠ shown := by
  obtain ⟨-, both⟩ := wrapped_field_eq_iff person (rfl : contactReference.isVoid = false)
    (List.cons_ne_nil _ _) contactReference_avoids 10 10 false .start
  obtain ⟨required, own, shown, wrapped, hown, foundOne, foundTwo, layers, same, shows⟩ :=
    both _ _ rfl rfl
  obtain rfl := same (by rintro ⟨_, union, -⟩; cases union)
  have said : own ≠ [] := by
    rintro rfl
    cases hown
  refine ⟨rfl, contactReference_avoids, _, _, own, wrapped, rfl, rfl, required, foundOne, foundTwo,
    ?_, ?_⟩
  · rw [layers]
    exact Alternatives.orNothing_of_ne_nil said
  · rw [Ne, shows]
    simp [said]

/-- Wrapped twice, a type shows as a union with an empty arm. -/
theorem wrapped_twice_shows :
    nickname.isVoid = false ∧ ∃ one two,
      document [] 10 (person.fill nickname) = .ok one ∧
      document [] 10 (person.fill (.optionalOf (.step 6) (.optionalOf (.step 5) nickname))) =
        .ok two ∧
      Alternatives.property? one "contact" = some (.object [("type", .string "string")]) ∧
      Alternatives.property? two "contact" = some (.object
        [("oneOf", .array [.object [("type", .string "string")], .object []])]) ∧
      Alternatives.property? one "contact" ≠ Alternatives.property? two "contact" := by
  have unlike : Json.object [("type", .string "string")] ≠
      .object [("oneOf", .array [.object [("type", .string "string")], .object []])] := by
    simp
  exact ⟨rfl, _, _, rfl, rfl, rfl, rfl, fun same => unlike (Option.some.inj same)⟩

end Projection

end SchemaDoc
