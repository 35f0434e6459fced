import SchemaDoc.Proofs.Json.Equality
import SchemaDoc.Proofs.Projection.Assembly

/-!
# What tells documents apart

The search for a discriminator looks at the properties of the first document only. What it finds is
described by all documents alike: the one name under which each of them has a single value, these
values being different. So neither the order of the documents counts nor that of their members.
-/
namespace SchemaDoc

namespace Json

variable {value other : Json} {name : String}

theorem members?_eq_some_iff {members : Members} :
    value.members? = some members ↔ value = .object members := by
  cases value <;> simp [members?]

theorem bind_string?_eq_some_iff {value? : Option Json} {text : String} :
    value?.bind string? = some text ↔ value? = some (.string text) := by
  rw [Option.bind_eq_some_iff]
  constructor
  · rintro ⟨value, rfl, htext⟩
    cases value <;> simp_all [string?]
  · rintro rfl
    exact ⟨_, rfl, rfl⟩

/-- The member of an object in an object. -/
theorem bind_get?_eq_some_iff {value? : Option Json} :
    value?.bind (·.get? name) = some other ↔
      ∃ members : Members, value? = some (.object members) ∧ members.get? name = some other := by
  simp only [Json.get?, Option.bind_eq_some_iff, members?_eq_some_iff]
  constructor
  · rintro ⟨value, rfl, members, rfl, found⟩
    exact ⟨members, rfl, found⟩
  · rintro ⟨members, rfl, found⟩
    exact ⟨_, rfl, members, rfl, found⟩

/-- Two values that are alike, and in which objects name their members once. -/
structure Matches (value other : Json) : Prop where
  alike : value.Alike other
  left : value.Unambiguous
  right : other.Unambiguous

theorem Matches.get? (h : value.Matches other) (name : String) :
    Option.Rel Matches (value.get? name) (other.get? name) := by
  cases value with
  | object members =>
    cases other with
    | object others =>
      have alike := h.alike.rel_get? h.left h.right name
      cases found : (object members).get? name with
      | none =>
        rw [(eq_none_iff_of_optionRel alike).mp found]
        exact .none
      | some inner =>
        obtain ⟨inner', found', same⟩ := exists_of_optionRel_left alike found
        rw [found']
        exact .some ⟨same, h.left.of_get? found, h.right.of_get? found'⟩
    | _ => cases h.alike
  | _ =>
    cases h.alike
    exact .none

theorem Matches.string?_eq (h : value.Matches other) : other.string? = value.string? := by
  cases h.alike <;> rfl

theorem Matches.items? (h : value.Matches other) :
    Option.Rel (List.Forall₂ Matches) value.items? other.items? := by
  cases value with
  | array items =>
    cases h.alike with
    | @array _ others alike =>
      apply Option.Rel.some
      refine (forall₂_mem_both alike).imp fun item other' mem => ?_
      exact ⟨mem.1.2, h.left.of_item mem.1.1, h.right.of_item mem.2⟩
  | _ =>
    cases h.alike
    exact .none

/-- The text of a member is the same in values that match. -/
theorem Matches.text_eq (h : value.Matches other) (name : String) :
    (other.get? name).bind string? = (value.get? name).bind string? := by
  have same := h.get? name
  generalize value.get? name = one at same ⊢
  generalize other.get? name = two at same ⊢
  cases same with
  | none => rfl
  | some inner => exact inner.string?_eq

theorem Matches.equal_eq {value' other' : Json} (h : value.Matches value')
    (h' : other.Matches other') : value.equal other = value'.equal other' :=
  equal_congr₂ h.alike h'.alike h.left h.right h'.left h'.right

end Json

namespace Alternatives

variable {documents others : List Members} {document : Members} {name : String}

/-! ## Single values -/

/-- The single value that a property may have. -/
def onlyValue? (property : Json) : Option Json :=
  if (property.get? "type").bind Json.string? = some "null" then some .null
  else match (property.get? "enum").bind Json.items? with
    | some [only] => some only
    | _ => none

/-- The property of an object document. -/
def property? (document : Members) (name : String) : Option Json :=
  ((Json.object document).get? "properties").bind (·.get? name)

theorem literalProperty?_eq (document : Members) (name : String) :
    literalProperty? document name = (property? document name).bind onlyValue? := by
  unfold literalProperty? property?
  rw [Option.bind_assoc]
  refine congrArg (Option.bind _) (funext fun properties => ?_)
  refine congrArg (Option.bind _) (funext fun property => ?_)
  unfold onlyValue?
  split
  · rfl
  · cases property.get? "enum" <;> rfl

theorem rel_onlyValue? {property other : Json} (h : property.Matches other) :
    Option.Rel Json.Matches (onlyValue? property) (onlyValue? other) := by
  unfold onlyValue?
  rw [h.text_eq]
  split
  · exact .some ⟨.null, .null, .null⟩
  · have items := optionRel_bind (h.get? "enum") fun _ _ same => same.items?
    generalize (property.get? "enum").bind Json.items? = one at items ⊢
    generalize (other.get? "enum").bind Json.items? = two at items ⊢
    cases items with
    | none => exact .none
    | some same =>
      cases same with
      | nil => exact .none
      | cons first rest =>
        cases rest with
        | nil => exact .some first
        | cons second rest => exact .none

theorem rel_property? {one two : Members} (h : (Json.object one).Matches (.object two))
    (name : String) : Option.Rel Json.Matches (property? one name) (property? two name) :=
  optionRel_bind (h.get? "properties") fun _ _ same => same.get? name

theorem rel_literalProperty? {one two : Members} (h : (Json.object one).Matches (.object two))
    (name : String) :
    Option.Rel Json.Matches (literalProperty? one name) (literalProperty? two name) := by
  rw [literalProperty?_eq, literalProperty?_eq]
  exact optionRel_bind (rel_property? h name) fun _ _ same => rel_onlyValue? same

theorem isObjectDocument_eq {one two : Members} (h : (Json.object one).Matches (.object two)) :
    isObjectDocument two = isObjectDocument one := by
  have same := h.text_eq "type"
  exact congrArg (decide <| · = some "object") same

theorem property?_eq_some_iff {property : Json} :
    property? document name = some property ↔ ∃ properties : Members,
      document.get? "properties" = some (.object properties) ∧ properties.get? name = some property :=
  Json.bind_get?_eq_some_iff

/-- Only a property that is there can have a single value. -/
theorem exists_properties_of_isSome (h : (literalProperty? document name).isSome = true) :
    ∃ properties property, document.get? "properties" = some (.object properties) ∧
      Members.get? properties name = some property := by
  rw [literalProperty?_eq] at h
  obtain ⟨value, hvalue⟩ := Option.isSome_iff_exists.mp h
  obtain ⟨property, hproperty, -⟩ := Option.bind_eq_some_iff.mp hvalue
  obtain ⟨properties, found, there⟩ := property?_eq_some_iff.mp hproperty
  exact ⟨properties, property, found, there⟩

/-! ## What a discriminator is -/

theorem pairwiseDistinct_iff {values : List Json} :
    pairwiseDistinct values = true ↔ values.Pairwise fun value later => value.equal later = false := by
  induction values with
  | nil => simp [pairwiseDistinct]
  | cons value rest ih => simp [pairwiseDistinct, ih]

/-- The property by that name tells object documents apart: no other name has a single value in
each of them, and these values are different. -/
structure Discriminates (name : String) (documents : List Members) : Prop where
  several : 2 ≤ documents.length
  objects : ∀ document ∈ documents, isObjectDocument document = true
  only : ∀ other,
    (∀ document ∈ documents, (literalProperty? document other).isSome = true) ↔ other = name
  different : (documents.filterMap (literalProperty? · name)).Pairwise
    fun value later => value.equal later = false

/-- The search goes through the properties of the first document and misses none that counts. -/
theorem mem_shared_iff {first : Members} (hfirst : documents.head? = some first)
    {properties : Members} (found : first.get? "properties" = some (.object properties)) :
    name ∈ properties.names.filter (fun name =>
        documents.all fun document => (literalProperty? document name).isSome) ↔
      ∀ document ∈ documents, (literalProperty? document name).isSome = true := by
  rw [List.mem_filter, List.all_eq_true]
  constructor
  · exact And.right
  · intro each
    refine ⟨?_, each⟩
    obtain ⟨properties', property, found', there⟩ :=
      exists_properties_of_isSome (each first (List.mem_of_head? hfirst))
    rw [found] at found'
    cases found'
    exact List.mem_map_of_mem (Members.mem_of_get? there)

theorem discriminates_of_discriminator? (h : discriminator? documents = some name) :
    Discriminates name documents := by
  unfold discriminator? at h
  split at h
  · cases h
  · next usual =>
    obtain ⟨several, objects⟩ := not_or.mp usual
    obtain ⟨first, hfirst, h⟩ := Option.bind_eq_some_iff.mp h
    obtain ⟨value, hvalue, h⟩ := Option.bind_eq_some_iff.mp h
    obtain ⟨properties, hproperties, found⟩ := Option.bind_eq_some_iff.mp h
    rw [Json.members?_eq_some_iff.mp hproperties] at hvalue
    dsimp only at found
    split at found
    · next only shared =>
      split at found
      · next different =>
        cases found
        refine ⟨by omega, by simpa using objects, fun other => ?_,
          pairwiseDistinct_iff.mp different⟩
        rw [← mem_shared_iff hfirst hvalue, shared, List.mem_singleton]
      · cases found
    · cases found

theorem discriminator?_eq_some_iff
    (valid : ∀ document ∈ documents, (Json.object document).Unambiguous) :
    discriminator? documents = some name ↔ Discriminates name documents := by
  refine ⟨discriminates_of_discriminator?, fun h => ?_⟩
  obtain ⟨first, hfirst⟩ : ∃ first, documents.head? = some first := by
    have several := h.several
    cases documents with
    | nil => simp at several
    | cons first rest => exact ⟨first, rfl⟩
  have mem := List.mem_of_head? hfirst
  obtain ⟨properties, -, found, -⟩ := exists_properties_of_isSome ((h.only name).mpr rfl first mem)
  have shared : (Members.names properties).filter (fun name =>
      documents.all fun document => (literalProperty? document name).isSome) = [name] := by
    have nodup := ((valid first mem).of_get? found).nodup
    apply List.perm_singleton.mp
    apply (List.perm_ext_iff_of_nodup (nodup.filter _) (List.nodup_singleton _)).mpr
    intro other
    rw [mem_shared_iff hfirst found, h.only, List.mem_singleton]
  have usual : ¬ (documents.length < 2 ∨ (!documents.all isObjectDocument) = true) := by
    have objects : documents.all isObjectDocument = true := List.all_eq_true.mpr h.objects
    rw [objects]
    rintro (few | none)
    · exact absurd h.several (by omega)
    · cases none
  have different := pairwiseDistinct_iff.mpr h.different
  unfold discriminator?
  rw [if_neg usual, hfirst, Option.bind_eq_bind, Option.bind_some, found]
  simp only [Option.bind_eq_bind, Option.bind_some, Json.members?, shared, different, if_true]

/-! ## Neither order counts -/

theorem Discriminates.of_matches (h : Discriminates name documents)
    (same : List.Forall₂ (fun one two => (Json.object one).Matches (.object two)) documents
      others) : Discriminates name others where
  several := same.length_eq ▸ h.several
  objects := by
    intro document mem
    obtain ⟨one, hone, matching⟩ := exists_of_mem_right same mem
    rw [isObjectDocument_eq matching, h.objects one hone]
  only := by
    intro other
    rw [← h.only other]
    apply (forall_mem_iff_of_forall₂ _ same).symm
    intro one two matching
    rw [isSome_eq_of_optionRel (rel_literalProperty? matching other)]
  different := by
    have values : List.Forall₂ Json.Matches (documents.filterMap (literalProperty? · name))
        (others.filterMap (literalProperty? · name)) := by
      apply List.rel_filterMap _ same
      intro one two matching
      exact rel_literalProperty? matching name
    apply pairwise_of_forall₂ _ values h.different
    intro value value' later later' hvalue hlater
    rw [hvalue.equal_eq hlater]
    exact id

theorem unambiguous_of_literalProperty? (valid : (Json.object document).Unambiguous) {value : Json}
    (h : literalProperty? document name = some value) : value.Unambiguous := by
  have same : (Json.object document).Matches (.object document) := ⟨.refl _, valid, valid⟩
  obtain ⟨other, -, matching⟩ := exists_of_optionRel_left (rel_literalProperty? same name) h
  exact matching.left

theorem Discriminates.perm (h : Discriminates name documents) (perm : documents.Perm others)
    (valid : ∀ document ∈ documents, (Json.object document).Unambiguous) :
    Discriminates name others where
  several := perm.length_eq ▸ h.several
  objects := fun document mem => h.objects document (perm.mem_iff.mpr mem)
  only := by
    intro other
    rw [← h.only other]
    simp only [perm.mem_iff]
  different := by
    -- Equality is symmetric for values in which no name is repeated.
    have values : ∀ value ∈ documents.filterMap (literalProperty? · name), value.Unambiguous := by
      intro value mem
      obtain ⟨document, hdocument, hvalue⟩ := List.mem_filterMap.mp mem
      exact unambiguous_of_literalProperty? (valid document hdocument) hvalue
    have reordered := perm.filterMap (literalProperty? · name)
    have apart : (others.filterMap (literalProperty? · name)).Pairwise fun value later =>
        value.Unambiguous → later.Unambiguous → value.equal later = false := by
      apply reordered.pairwise (h.different.imp fun same _ _ => same)
      intro value later same hlater hvalue
      rw [Json.equal_comm hlater hvalue, same hvalue hlater]
    refine apart.imp_of_mem fun {value later} hvalue hlater same => ?_
    exact same (values value (reordered.mem_iff.mpr hvalue))
      (values later (reordered.mem_iff.mpr hlater))

end Alternatives

end SchemaDoc
