import SchemaDoc.Proofs.Projection.Composition
import SchemaDoc.Proofs.Projection.ToldApart

/-!
# Which unions of structs have a discriminator

The search for a discriminator looks at documents. For structs whose fields are literals, optional
literals, or of kinds that have no values of their own, what it finds is told from the schemas: the
one field that is a literal in every struct, if its literals tell all documents apart.
-/
namespace SchemaDoc

/-! ## Literal fields -/

/-- Literals that are equal; numbers count by value. -/
inductive Literal.Same : Literal → Literal → Prop
  | refl (literal : Literal) : Same literal literal
  | number {x y : Double} : x.value = y.value →
      Same (.number (.finite x)) (.number (.finite y))

/-- Literals with one value are the same. -/
theorem Literal.same_of_toJson? {literal literal' : Literal} {value : Json}
    (h : literal.toJson? = some value) (h' : literal'.toJson? = some value) :
    literal.Same literal' := by
  have types : literal.scalarType = literal'.scalarType := by
    rw [← typeName_of_toJson? h, ← typeName_of_toJson? h']
  rcases kinds_of_scalarType_eq types with ⟨x, y, rfl, rfl⟩ | ⟨text, text', rfl, rfl⟩ |
    ⟨b, b', rfl, rfl⟩ | ⟨rfl, rfl⟩
  · obtain ⟨d, hd, rfl⟩ := Option.map_eq_some_iff.mp h
    obtain ⟨e, he, written⟩ := Option.map_eq_some_iff.mp h'
    cases x <;> cases hd
    cases y <;> cases he
    exact .number (Number.ofDouble_eq_iff.mp (Json.number.inj written)).symm
  · cases h
    cases h'
    exact .refl _
  · cases h
    cases h'
    exact .refl _
  · exact .refl _

/-- Literals are the same exactly if their values are equal. -/
theorem Literal.same_iff {literal literal' : Literal} {one two : Json}
    (h : literal.toJson? = some one) (h' : literal'.toJson? = some two) :
    literal.Same literal' ↔ one.equal two = true := by
  constructor
  · intro same
    cases same with
    | refl =>
      cases h.symm.trans h'
      exact equal_self h
    | @number x y same =>
      have first : one = .number (.ofDouble x) := (Option.some.inj h).symm
      have second : two = .number (.ofDouble y) := (Option.some.inj h').symm
      rw [first, second, Number.ofDouble_eq_iff.mpr same]
      exact Number.equal_self _
  · intro equal
    rw [← eq_of_equal h h' equal] at h'
    exact same_of_toJson? h h'

/-- The kinds of schemas that always admit more than one value. -/
inductive Shape.Broad {σ : Type} : Shape σ → Prop
  | primitive (primitive : Primitive) : Broad (.primitive primitive)
  | struct (fields : List (Field σ)) (index : Option σ) : Broad (.struct fields index)
  | tuple (elements : List (Element σ)) (rest : Option σ) : Broad (.tuple elements rest)
  | hidden : Broad .hidden

namespace Schema

/-- The literal that is the type of a field, be it as the one alternative to nothing at all. -/
def literalType? (schema : Schema) : Option Literal :=
  match schema.shape with
  | .literal literal => some literal
  | .union [inner, absent] => if absent.isVoid then inner.literal? else none
  | _ => none

/-- The type of a field that is a literal with a JSON value, as such or optional, or that is broader
than one value. -/
inductive FieldType (schema : Schema) : Prop
  | literal {literal : Literal} {value : Json} : schema.literalType? = some literal →
      literal.toJson? = some value → FieldType schema
  | broad : schema.shape.Broad → FieldType schema

/-- A struct with different fields, each of such a type. -/
def PlainStruct (schema : Schema) : Prop :=
  ∃ fields index, schema.shape = .struct fields index ∧ (fields.map Field.name).Nodup ∧
    ∀ field ∈ fields, field.node.FieldType

/-- The literal of the field of a struct by that name. -/
def literalField? (schema : Schema) (name : String) : Option Literal :=
  match schema.shape with
  | .struct fields _ => (fields.find? (·.name = name)).bind (·.node.literalType?)
  | _ => none

end Schema

/-- The field by that name tells structs apart: it is the only one that is a literal in each of
them, and those that have the same literal there have the same document. -/
structure Schema.ToldApartBy (project : Schema → Outcome) (members : List Schema)
    (name : String) : Prop where
  only : ∀ other, (∀ member ∈ members, (member.literalField? other).isSome = true) ↔ other = name
  apart : ∀ one ∈ members, ∀ two ∈ members, ∀ literal literal' document document',
    one.literalField? name = some literal → two.literalField? name = some literal' →
    literal.Same literal' → project one = .ok document → project two = .ok document' →
    (Json.object document).Alike (.object document')

theorem Schema.literalType?_of_broad {schema : Schema} (broad : schema.shape.Broad) :
    schema.literalType? = none := by
  unfold literalType?
  generalize schema.shape = shape at broad ⊢
  cases broad <;> rfl

/-- Literals in fields have values. -/
theorem Schema.FieldType.exists_value {schema : Schema} (type : schema.FieldType)
    {literal : Literal} (h : schema.literalType? = some literal) :
    ∃ value, literal.toJson? = some value := by
  cases type with
  | literal told hvalue =>
    cases told.symm.trans h
    exact ⟨_, hvalue⟩
  | broad broad =>
    rw [literalType?_of_broad broad] at h
    cases h

namespace Alternatives

theorem onlyValue?_overlay (notes : Annotations) (document : Members) :
    onlyValue? (.object (notes.overlay document)) = onlyValue? (.object document) := by
  have type : (Json.object (notes.overlay document)).get? "type" =
      (Json.object document).get? "type" := notes.get?_overlay document (by decide)
  have enum : (Json.object (notes.overlay document)).get? "enum" =
      (Json.object document).get? "enum" := notes.get?_overlay document (by decide)
  rw [onlyValue?, onlyValue?, type, enum]

theorem onlyValue?_enumeration {literal : Literal} {value : Json}
    (h : literal.toJson? = some value) :
    onlyValue? (.object (enumeration literal.scalarType [value])) = some value := by
  cases literal with
  | null =>
    cases h
    rfl
  | _ => rfl

theorem onlyValue?_eq_none {document : Members}
    (type : document.get? "type" ≠ some (.string "null")) (enum : document.get? "enum" = none) :
    onlyValue? (.object document) = none := by
  unfold onlyValue?
  rw [if_neg]
  · rw [Json.get?, Json.members?, Option.bind_some, enum]
    rfl
  · intro null
    exact type (Json.bind_string?_eq_some_iff.mp null)

end Alternatives

namespace Projection

open Alternatives

variable {bindings : Bindings} {cap remaining : Nat} {inField : Bool} {trail : Trail}
  {schema : Schema} {document : Members}

theorem exists_shapeOf_of_node {follow : Trail → Reference Schema → Outcome}
    (h : node follow inField trail schema = .ok document) : ∃ inner,
      shapeOf follow inField (trail.visit schema.identity) schema.shape = .ok inner ∧
      document = schema.notes.overlay inner := by
  rw [node_eq] at h
  obtain ⟨inner, hinner, h⟩ := bind_eq_ok.mp h
  cases h
  exact ⟨inner, hinner, rfl⟩

/-- The document of a literal has its value. -/
theorem onlyValue?_of_literal {follow : Trail → Reference Schema → Outcome} {literal : Literal}
    (hliteral : schema.literal? = some literal)
    (h : node follow inField trail schema = .ok document) :
    onlyValue? (.object document) = literal.toJson? := by
  obtain ⟨inner, hinner, rfl⟩ := exists_shapeOf_of_node h
  have made := makes_of_shapeOf_eq_ok hinner
  rw [shape_eq_of_literal? hliteral] at made
  cases made with
  | literal hvalue => rw [onlyValue?_overlay, onlyValue?_enumeration hvalue, hvalue]

/-- A document that admits more has no single value. -/
theorem onlyValue?_of_broad {part : Bool → Schema → Members → Prop}
    {target : Reference Schema → Members → Prop} {shape : Shape Schema} (broad : shape.Broad)
    (made : shape.Makes part target inField document) : onlyValue? (.object document) = none := by
  cases made with
  | primitive primitive =>
    cases primitive <;> exact onlyValue?_eq_none (by simp [ofPrimitive, Members.get?]) rfl
  | struct _ _ => exact onlyValue?_eq_none (by simp [ofStruct, Members.get?]) rfl
  | @tuple elements rest documents others =>
    obtain ⟨items, least, most, further, same⟩ := Sequence.exists_laid elements documents others
    rw [same]
    exact onlyValue?_eq_none (by simp [Sequence.laid, Members.get?])
      (Sequence.absent_laid (by decide))
  | hidden => exact onlyValue?_eq_none (by simp [Members.get?]) rfl
  | literal _ => cases broad
  | enumeration _ => cases broad
  | union _ => cases broad
  | refinement _ _ => cases broad
  | recursive _ => cases broad

/-- An optional literal in a field has the document of the literal. -/
theorem onlyValue?_of_optional {identity : Identity} {inner absent : Schema} {notes : Annotations}
    {literal : Literal} (void : absent.isVoid = true) (hliteral : inner.literal? = some literal)
    (h : node (follow bindings cap remaining) true trail
      (.node identity (.union [inner, absent]) notes) = .ok document) :
    onlyValue? (.object document) = literal.toJson? := by
  have present : inner.isVoid = false := by
    rw [Schema.isVoid, shape_eq_of_literal? hliteral]
  have counted : [inner, absent].filter (counts true [inner, absent]) = [inner] := by
    simp [counts, void, present]
  obtain ⟨made, rfl, ways⟩ := (node_union_eq_ok_iff identity notes).mp h
  rw [counted] at ways
  rcases ways with found | ⟨-, documents, hdocuments, rfl⟩
  · cases found
  · cases hdocuments with
    | cons honly hrest =>
      cases hrest
      rw [onlyValue?_overlay]
      exact onlyValue?_of_literal hliteral honly

/-- The single value of a property is that of the literal that is the type of its field. -/
theorem onlyValue?_of_field (type : schema.FieldType)
    (h : node (follow bindings cap remaining) true trail schema = .ok document) :
    onlyValue? (.object document) = schema.literalType?.bind Literal.toJson? := by
  cases type with
  | @literal literal value told hvalue =>
    rw [told, Option.bind_some]
    obtain ⟨identity, shape, notes⟩ := schema
    unfold Schema.literalType? at told
    split at told
    · next hshape =>
      cases told
      exact onlyValue?_of_literal (by rw [Schema.literal?, hshape]) h
    · next inner absent hshape =>
      split at told
      · next void =>
        obtain rfl : shape = .union [inner, absent] := hshape
        exact onlyValue?_of_optional void told h
      · cases told
    · cases told
  | broad broad =>
    obtain ⟨inner, hinner, rfl⟩ := exists_shapeOf_of_node h
    rw [onlyValue?_overlay, onlyValue?_of_broad broad (makes_of_shapeOf_eq_ok hinner),
      Schema.literalType?_of_broad broad]
    rfl

/-! ## Documents of structs -/

/-- The property of a name is the document of the field by that name. -/
theorem rel_find?_field (made : Schema → Members → Prop) {fields : List (Field Schema)}
    {properties : Members} (h : List.Forall₂ (fun field property => ∃ document,
      made field.node document ∧ property = (field.name, Json.object document)) fields properties)
    (name : String) :
    Option.Rel (fun field property => ∃ document, made field.node document ∧
      property = Json.object document) (fields.find? (·.name = name)) (properties.get? name) := by
  induction h with
  | nil => exact .none
  | @cons field _ rest properties hfirst _ ih =>
    obtain ⟨document, hdocument, rfl⟩ := hfirst
    by_cases same : field.name = name
    · subst same
      rw [List.find?_cons_of_pos (by simp), Members.get?, List.lookup_cons_self]
      exact .some ⟨document, hdocument, rfl⟩
    · rw [List.find?_cons_of_neg (by simp [same]), Members.get?, List.lookup_cons,
        beq_eq_false_iff_ne.mpr (Ne.symm same)]
      exact ih

/-- A plain struct has a single value for a property exactly where it has a literal field. -/
theorem literalProperty?_of_plainStruct (plain : schema.PlainStruct)
    (h : node (follow bindings cap remaining) false trail schema = .ok document) (name : String) :
    literalProperty? document name = (schema.literalField? name).bind Literal.toJson? := by
  obtain ⟨fields, index, hshape, nodup, types⟩ := plain
  obtain ⟨inner, hinner, rfl⟩ := exists_shapeOf_of_node h
  have made := makes_of_shapeOf_eq_ok hinner
  rw [hshape] at made
  cases made with
  | @struct _ _ properties others hproperties _ =>
    have names : properties.names = fields.map Field.name :=
      names_of_fields (fun inner document => ∃ trail',
        node (follow bindings cap remaining) true trail' inner = .ok document) hproperties
    have rel := rel_find?_field (fun inner document => ∃ trail',
      node (follow bindings cap remaining) true trail' inner = .ok document) hproperties name
    rw [literalProperty?_eq, property?_ofStruct (names ▸ nodup), Schema.literalField?, hshape]
    dsimp only
    cases hfound : fields.find? (·.name = name) with
    | none =>
      rw [(eq_none_iff_of_optionRel rel).mp hfound]
      rfl
    | some field =>
      obtain ⟨property, hproperty, document, ⟨trail', hdocument⟩, rfl⟩ :=
        exists_of_optionRel_left rel hfound
      rw [hproperty, Option.bind_some, Option.bind_some]
      exact onlyValue?_of_field (types field (List.mem_of_find?_eq_some hfound)) hdocument

theorem isObjectDocument_of_plainStruct (plain : schema.PlainStruct)
    (h : node (follow bindings cap remaining) false trail schema = .ok document) :
    isObjectDocument document = true := by
  obtain ⟨fields, index, hshape, -, -⟩ := plain
  obtain ⟨inner, hinner, rfl⟩ := exists_shapeOf_of_node h
  have made := makes_of_shapeOf_eq_ok hinner
  rw [hshape] at made
  cases made with
  | struct _ _ =>
    rw [isObjectDocument_iff, Annotations.get?_overlay _ _ (by decide)]
    rfl

theorem exists_value_of_literalField? (plain : schema.PlainStruct) {name : String}
    {literal : Literal} (h : schema.literalField? name = some literal) :
    ∃ value, literal.toJson? = some value := by
  obtain ⟨fields, index, hshape, -, types⟩ := plain
  rw [Schema.literalField?, hshape] at h
  obtain ⟨field, hfield, htype⟩ := Option.bind_eq_some_iff.mp h
  exact (types field (List.mem_of_find?_eq_some hfield)).exists_value htype

theorem isSome_literalProperty? (plain : schema.PlainStruct)
    (h : node (follow bindings cap remaining) false trail schema = .ok document) (name : String) :
    (literalProperty? document name).isSome = (schema.literalField? name).isSome := by
  rw [literalProperty?_of_plainStruct plain h]
  cases hliteral : schema.literalField? name with
  | none => rfl
  | some literal =>
    obtain ⟨value, hvalue⟩ := exists_value_of_literalField? plain hliteral
    rw [Option.bind_some, hvalue]
    rfl

/-! ## Documents of unions of structs -/

section

variable {members : List Schema} {documents : List Members}

/-- Every document matches one of those that are kept. -/
theorem exists_kept (valid : ∀ document ∈ documents, (Json.object document).Unambiguous)
    (mem : document ∈ documents) :
    ∃ kept ∈ distinct [] documents, (Json.object document).Matches (.object kept) := by
  obtain ⟨kept, hkept, same⟩ := exists_key_of_mem mem List.not_mem_nil
  have there := (distinct_sublist [] documents).subset hkept
  exact ⟨kept, hkept, Json.alike_of_key_eq same.symm, valid document mem, valid kept there⟩

/-- Among the documents that are kept, the same names have single values as among all. -/
theorem forall_isSome_kept_iff
    (valid : ∀ document ∈ documents, (Json.object document).Unambiguous) (name : String) :
    (∀ document ∈ distinct [] documents, (literalProperty? document name).isSome = true) ↔
      ∀ document ∈ documents, (literalProperty? document name).isSome = true := by
  constructor
  · intro each document mem
    obtain ⟨kept, hkept, matching⟩ := exists_kept valid mem
    rw [← isSome_eq_of_optionRel (rel_literalProperty? matching name)]
    exact each kept hkept
  · exact fun each document mem => each document ((distinct_sublist [] documents).subset mem)

/-- The single values of documents that are kept are different exactly if documents are alike
wherever these values are equal. -/
theorem pairwise_kept_iff
    (valid : ∀ document ∈ documents, (Json.object document).Unambiguous) (name : String) :
    ((distinct [] documents).filterMap (literalProperty? · name)).Pairwise
        (fun value later => value.equal later = false) ↔
      ∀ one ∈ documents, ∀ two ∈ documents, ∀ value value',
        literalProperty? one name = some value → literalProperty? two name = some value' →
        value.equal value' = true → (Json.object one).Alike (.object two) := by
  rw [List.pairwise_filterMap]
  constructor
  · intro different one hone two htwo value value' hvalue hvalue' equal
    obtain ⟨kept, hkept, matching⟩ := exists_kept valid hone
    obtain ⟨kept', hkept', matching'⟩ := exists_kept valid htwo
    by_cases same : kept = kept'
    · subst same
      exact (matching.trans matching'.symm).alike
    · -- The kept documents are different ones, but their values are equal as well.
      exfalso
      obtain ⟨first, hfirst, values⟩ :=
        exists_of_optionRel_left (rel_literalProperty? matching name) hvalue
      obtain ⟨second, hsecond, values'⟩ :=
        exists_of_optionRel_left (rel_literalProperty? matching' name) hvalue'
      rw [values.equal_eq values'] at equal
      rcases pairwise_either different hkept hkept' same with unequal | unequal
      · rw [unequal first hfirst second hsecond] at equal
        cases equal
      · rw [Json.equal_comm values.right values'.right, unequal second hsecond first hfirst] at equal
        cases equal
  · intro alike
    refine (pairwise_distinct [] documents).imp_of_mem ?_
    intro one two hone htwo different value hvalue value' hvalue'
    by_contra equal
    have hone' := (distinct_sublist [] documents).subset hone
    have htwo' := (distinct_sublist [] documents).subset htwo
    apply different
    exact Json.key_eq_of_alike (alike one hone' two htwo' value value' hvalue hvalue'
      (by simpa using equal)) (valid one hone') (valid two htwo')

/-- The single values of documents of structs are different exactly if structs with the same
literals have documents that are alike. -/
theorem different_iff_apart (plain : ∀ member ∈ members, member.PlainStruct)
    (each : List.Forall₂ (fun member document =>
      node (follow bindings cap remaining) false trail member = .ok document) members documents)
    (valid : ∀ document ∈ documents, (Json.object document).Unambiguous) (name : String) :
    ((distinct [] documents).filterMap (literalProperty? · name)).Pairwise
        (fun value later => value.equal later = false) ↔
      ∀ one ∈ members, ∀ two ∈ members, ∀ literal literal' document document',
        one.literalField? name = some literal → two.literalField? name = some literal' →
        literal.Same literal' →
        node (follow bindings cap remaining) false trail one = .ok document →
        node (follow bindings cap remaining) false trail two = .ok document' →
        (Json.object document).Alike (.object document') := by
  rw [pairwise_kept_iff valid name]
  constructor
  · intro alike one hone two htwo literal literal' document document' hliteral hliteral' same
      hdocument hdocument'
    obtain ⟨value, hvalue⟩ := exists_value_of_literalField? (plain one hone) hliteral
    obtain ⟨value', hvalue'⟩ := exists_value_of_literalField? (plain two htwo) hliteral'
    apply alike document (mem_of_forall₂_ok each hone hdocument) document'
      (mem_of_forall₂_ok each htwo hdocument') value value'
    · rw [literalProperty?_of_plainStruct (plain one hone) hdocument, hliteral]
      exact hvalue
    · rw [literalProperty?_of_plainStruct (plain two htwo) hdocument', hliteral']
      exact hvalue'
    · exact (Literal.same_iff hvalue hvalue').mp same
  · intro alike document mem document' mem' value value' hvalue hvalue' equal
    obtain ⟨one, hone, hdocument⟩ := exists_of_mem_right each mem
    obtain ⟨two, htwo, hdocument'⟩ := exists_of_mem_right each mem'
    rw [literalProperty?_of_plainStruct (plain one hone) hdocument] at hvalue
    rw [literalProperty?_of_plainStruct (plain two htwo) hdocument'] at hvalue'
    obtain ⟨literal, hliteral, hvalue⟩ := Option.bind_eq_some_iff.mp hvalue
    obtain ⟨literal', hliteral', hvalue'⟩ := Option.bind_eq_some_iff.mp hvalue'
    exact alike one hone two htwo literal literal' document document' hliteral hliteral'
      ((Literal.same_iff hvalue hvalue').mpr equal) hdocument hdocument'

/-- What discriminates the documents of structs tells the structs apart. -/
theorem discriminates_iff (plain : ∀ member ∈ members, member.PlainStruct)
    (each : List.Forall₂ (fun member document =>
      node (follow bindings cap remaining) false trail member = .ok document) members documents)
    (valid : ∀ document ∈ documents, (Json.object document).Unambiguous)
    (several : 2 ≤ (distinct [] documents).length) (name : String) :
    Discriminates name (distinct [] documents) ↔
      Schema.ToldApartBy (node (follow bindings cap remaining) false trail) members name := by
  have shared : ∀ other, (∀ document ∈ distinct [] documents,
      (literalProperty? document other).isSome = true) ↔
        ∀ member ∈ members, (member.literalField? other).isSome = true := by
    intro other
    rw [forall_isSome_kept_iff valid other]
    refine (forall_mem_iff_of_forall₂ ?_ (forall₂_mem each)).symm
    intro member document h
    rw [isSome_literalProperty? (plain member h.1) h.2]
  constructor
  · intro h
    exact ⟨fun other => (shared other).symm.trans (h.only other),
      (different_iff_apart plain each valid name).mp h.different⟩
  · intro h
    refine ⟨several, ?_, fun other => (shared other).trans (h.only other),
      (different_iff_apart plain each valid name).mpr h.apart⟩
    intro document mem
    obtain ⟨member, hmember, hdocument⟩ :=
      exists_of_mem_right each ((distinct_sublist [] documents).subset mem)
    exact isObjectDocument_of_plainStruct (plain member hmember) hdocument

theorem filter_counts_of_structs (plain : ∀ member ∈ members, member.PlainStruct) :
    members.filter (counts inField members) = members := by
  apply List.filter_eq_self.mpr
  intro member mem
  obtain ⟨fields, index, hshape, -, -⟩ := plain member mem
  have present : member.isVoid = false := by rw [Schema.isVoid, hshape]
  simp [counts, present]

/-- A union of structs that do not all have the same document has a discriminator exactly if one
of their fields tells them apart. -/
theorem exists_told_of_structs {identity : Identity} {notes : Annotations}
    (plain : ∀ member ∈ members, member.PlainStruct)
    (valid : ∀ member ∈ members, member.ValuesUnambiguous bindings)
    (different : ∃ one ∈ members, ∃ two ∈ members, ∃ document document',
      node (follow bindings cap remaining) false (trail.visit identity) one = .ok document ∧
      node (follow bindings cap remaining) false (trail.visit identity) two = .ok document' ∧
      ¬ (Json.object document).Alike (.object document'))
    (h : node (follow bindings cap remaining) inField trail (.node identity (.union members) notes) =
      .ok document) :
    ∃ told : Option String,
      document.get? "discriminator" =
        told.map (fun name => .object [("propertyName", .string name)]) ∧
      ∀ name, told = some name ↔ Schema.ToldApartBy
        (node (follow bindings cap remaining) false (trail.visit identity)) members name := by
  obtain ⟨one, hone, two, htwo, first, second, hfirst, hsecond, unlike⟩ := different
  obtain ⟨made, rfl, ways⟩ := (node_union_eq_ok_iff identity notes).mp h
  rw [filter_counts_of_structs plain] at ways
  rcases ways with found | ⟨-, documents, each, rfl⟩
  · -- A struct is no literal.
    obtain ⟨literal, -, hliteral, -⟩ :=
      Alternatives.literalEnum_eq_some found _ (List.mem_map_of_mem hone)
    obtain ⟨fields, index, hshape, -, -⟩ := plain one hone
    rw [shape_eq_of_literal? hliteral] at hshape
    cases hshape
  · have valid' : ∀ document ∈ documents, (Json.object document).Unambiguous := by
      intro document mem
      obtain ⟨member, hmember, hdocument⟩ := exists_of_mem_right each mem
      exact unambiguous_of_node (valid member hmember) hdocument
    have mem := mem_of_forall₂_ok each hone hfirst
    have several := two_le_length_distinct mem (mem_of_forall₂_ok each htwo hsecond)
      fun same => unlike (Json.alike_of_key_eq same)
    rcases join_cases (List.ne_nil_of_mem mem) with ⟨only, single, -⟩ | ⟨-, same⟩
    · rw [single, List.length_singleton] at several
      omega
    · refine ⟨discriminator? (distinct [] documents), ?_, fun name => ?_⟩
      · rw [Annotations.get?_overlay _ _ (by decide), same, listed_eq, discriminator_oneOf]
      · rw [discriminator?_eq_some_iff fun document mem =>
          valid' document ((distinct_sublist [] documents).subset mem)]
        exact discriminates_iff plain each valid' several name

end

/-- Discriminators are sound: where a union names one, its arms are objects that this property tells
apart. Of structs they are complete: if not all have the same document, there is a discriminator
exactly if a field tells them apart, and it is this field. -/
theorem discriminator_sound_and_complete (identity : Identity) (members : List Schema)
    (notes : Annotations) (h : node (follow bindings cap remaining) inField trail
      (.node identity (.union members) notes) = .ok document) :
    (Schema.HintsApart bindings (.node identity (.union members) notes) →
      ∀ told name, document.get? "discriminator" = some told →
        told.get? "propertyName" = some (.string name) → TellsApart name document) ∧
    ((∀ member ∈ members, member.PlainStruct) →
      (∀ member ∈ members, member.ValuesUnambiguous bindings) →
      (∃ one ∈ members, ∃ two ∈ members, ∃ document document',
        node (follow bindings cap remaining) false (trail.visit identity) one = .ok document ∧
        node (follow bindings cap remaining) false (trail.visit identity) two = .ok document' ∧
        ¬ (Json.object document).Alike (.object document')) →
      (∀ name, document.get? "discriminator" = some (.object [("propertyName", .string name)]) ↔
        Schema.ToldApartBy (node (follow bindings cap remaining) false (trail.visit identity))
          members name) ∧
      ((∀ name, ¬ Schema.ToldApartBy
          (node (follow bindings cap remaining) false (trail.visit identity)) members name) →
        document.get? "discriminator" = none)) := by
  constructor
  · intro hints told name found hname
    obtain ⟨name', rfl, apart⟩ := (telling_of_node hints h).discriminator told found
    cases hname
    exact apart
  · intro plain valid different
    obtain ⟨told, found, htold⟩ := exists_told_of_structs plain valid different h
    constructor
    · intro name
      rw [found, ← htold name]
      cases told <;> simp
    · intro none
      cases told with
      | none => exact found
      | some name => exact absurd ((htold name).mp rfl) (none name)

/-! ## Figures -/

def circleKind : Schema := .make (.step 1) (.literal (.string "circle"))

def squareKind : Schema := .make (.step 2) (.literal (.string "square"))

def distance : Schema := .make (.step 3) (.primitive .number)

def circle : Schema :=
  .make (.step 4) (.struct [⟨"kind", circleKind, false⟩, ⟨"radius", distance, false⟩] none)

/-- The kind of a square may be left out. -/
def square : Schema :=
  .make (.step 5) (.struct [⟨"kind", .optionalOf (.step 6) squareKind, true⟩,
    ⟨"side", distance, false⟩] none)

def figures : Schema := .make (.step 7) (.union [circle, square])

/-- The nodes of the figures. -/
def figureNodes : List Schema :=
  [figures, circle, square, circleKind, .optionalOf (.step 6) squareKind, squareKind,
    .make (.part (.step 6) 1) (.primitive .void), distance]

theorem mem_figureNodes {root schema : Schema} (mem : root ∈ figureNodes)
    (reached : Reachable [] root schema) : schema ∈ figureNodes := by
  apply mem_of_reachable _ _ mem reached
  · simp [figureNodes, figures, circle, square, circleKind, squareKind, distance, Schema.make,
      Schema.optionalOf, Schema.shape, Shape.parts]
  · simp [figureNodes, figures, circle, square, circleKind, squareKind, distance, Schema.make,
      Schema.optionalOf, Schema.shape]

/-- There are neither hints nor examples. -/
theorem bare_figureNodes : ∀ schema ∈ figureNodes,
    (∀ base constraints, schema.shape ≠ .refinement base constraints) ∧
      schema.notes.examples = [] := by
  simp [figureNodes, figures, circle, square, circleKind, squareKind, distance, Schema.make,
    Schema.optionalOf, Schema.shape, Schema.notes, Annotations.none]

theorem hintsApart_figures : figures.HintsApart [] := by
  intro inner reached base constraints refined
  have mem := mem_figureNodes (by simp [figureNodes]) reached
  exact absurd refined ((bare_figureNodes inner mem).1 base constraints)

theorem valuesUnambiguous_figures : ∀ member ∈ [circle, square], member.ValuesUnambiguous [] := by
  intro member mem
  have listed : ∀ member ∈ [circle, square], member ∈ figureNodes := by simp [figureNodes]
  exact .of_bare fun inner reached =>
    bare_figureNodes inner (mem_figureNodes (listed member mem) reached)

theorem plainStruct_figures : ∀ member ∈ [circle, square], member.PlainStruct := by
  have number : distance.FieldType := .broad (.primitive .number)
  simp only [List.forall_mem_cons, List.not_mem_nil, false_imp_iff, implies_true, and_true]
  constructor
  · refine ⟨_, _, rfl, by decide, ?_⟩
    simp only [List.forall_mem_cons, List.not_mem_nil, false_imp_iff, implies_true, and_true]
    exact ⟨.literal rfl rfl, number⟩
  · refine ⟨_, _, rfl, by decide, ?_⟩
    simp only [List.forall_mem_cons, List.not_mem_nil, false_imp_iff, implies_true, and_true]
    exact ⟨.literal rfl rfl, number⟩

/-- A square has no radius. -/
theorem circle_unlike_square : ∃ one ∈ [circle, square], ∃ two ∈ [circle, square],
    ∃ document document',
      node (follow [] 10 10) false (Trail.start.visit (.step 7)) one = .ok document ∧
      node (follow [] 10 10) false (Trail.start.visit (.step 7)) two = .ok document' ∧
      ¬ (Json.object document).Alike (.object document') := by
  obtain ⟨document, made, round⟩ : ∃ document,
      node (follow [] 10 10) false (Trail.start.visit (.step 7)) circle = .ok document ∧
        (property? document "radius").isSome = true := ⟨_, rfl, rfl⟩
  obtain ⟨document', made', straight⟩ : ∃ document,
      node (follow [] 10 10) false (Trail.start.visit (.step 7)) square = .ok document ∧
        (property? document "radius").isSome = false := ⟨_, rfl, rfl⟩
  refine ⟨circle, by simp, square, by simp, document, document', made, made', fun alike => ?_⟩
  have valid := unambiguous_of_node (valuesUnambiguous_figures circle (by simp)) made
  have valid' := unambiguous_of_node (valuesUnambiguous_figures square (by simp)) made'
  have same := isSome_eq_of_optionRel (rel_property? ⟨alike, valid, valid'⟩ "radius")
  rw [round, straight] at same
  cases same

set_option maxRecDepth 8000 in
theorem discriminator_of_figures :
    ∃ document, node (follow [] 10 10) false .start figures = .ok document ∧
      TellsApart "kind" document ∧
      Schema.ToldApartBy (node (follow [] 10 10) false (Trail.start.visit (.step 7)))
        [circle, square] "kind" := by
  obtain ⟨document, projected, found⟩ : ∃ document,
      node (follow [] 10 10) false .start figures = .ok document ∧
        document.get? "discriminator" = some (.object [("propertyName", .string "kind")]) :=
    ⟨_, rfl, rfl⟩
  have both := discriminator_sound_and_complete (.step 7) [circle, square] .none projected
  have sound := both.1 hintsApart_figures _ "kind" found rfl
  have complete := both.2 plainStruct_figures valuesUnambiguous_figures circle_unlike_square
  exact ⟨document, projected, sound, (complete.1 "kind").mp found⟩

end Projection

end SchemaDoc
