import SchemaDoc.Proofs.Projection.Assembly
import SchemaDoc.Proofs.Projection.Coherence
import SchemaDoc.Proofs.Projection.HintSurvival

/-!
# Every document is coherent

Each way of making a document is shown to make a coherent one from coherent documents of the parts.
Two things are asked of a schema. It has to be one that can be built: fields have different names,
unions have members, and attached values name no member twice. And its hints must leave alone the
members that shapes decide, since a hint may write anything.
-/
namespace SchemaDoc

/-! ## Single documents -/

theorem Projection.sound_stub : stub.Sound := by
  refine Members.Sound.of_absent (.object (by decide) ?_) (by decide)
  exact List.forall_mem_singleton.mpr (.string _)

theorem Projection.sound_nil : Members.Sound [] :=
  Members.Sound.of_absent (.object (by decide) nofun) (by decide)

theorem Projection.sound_ofPrimitive (primitive : Primitive) : (ofPrimitive primitive).Sound := by
  have typed : ∀ scalar : String, Members.Sound [("type", .string scalar)] := by
    intro scalar
    refine Members.Sound.of_absent (.object (List.nodup_singleton _) ?_) ?_
    · exact List.forall_mem_singleton.mpr (.string _)
    · intro name _ different
      simp [Members.get?, List.lookup_cons, beq_eq_false_iff_ne.mpr different]
  cases primitive with
  | string => exact typed "string"
  | number => exact typed "number"
  | boolean => exact typed "boolean"
  | void => exact sound_nil
  | unknown => exact sound_nil

namespace Literal

variable {literal : Literal} {value : Json}

theorem typeName_of_toJson? (h : literal.toJson? = some value) :
    value.typeName = literal.scalarType := by
  cases literal with
  | number x =>
    obtain ⟨_, -, rfl⟩ := Option.map_eq_some_iff.mp h
    rfl
  | string text => cases h; rfl
  | boolean b => cases h; rfl
  | null => cases h; rfl

theorem unambiguous_of_toJson? (h : literal.toJson? = some value) : value.Unambiguous := by
  cases literal with
  | number x =>
    obtain ⟨_, -, rfl⟩ := Option.map_eq_some_iff.mp h
    exact .number _
  | string text => cases h; exact .string text
  | boolean b => cases h; exact .bool b
  | null => cases h; exact .null

end Literal

namespace Alternatives

/-! ## Enumerations -/

/-- Different values of literals of the type, at least one if there is a type. -/
structure Collected (scalar : Option String) (values : List Json) : Prop where
  distinct : values.Pairwise fun one later => later.equal one = false
  literals : ∀ value ∈ values, ∃ literal : Literal, literal.toJson? = some value ∧
    scalar = some literal.scalarType
  nonempty : scalar ≠ none → values ≠ []

theorem Collected.start : Collected none [] := ⟨.nil, nofun, fun h => absurd rfl h⟩

theorem Collected.step {scalar : Option String} {values : List Json} (h : Collected scalar values)
    {literal : Literal} {value : Json} (same : scalar.all (· = literal.scalarType) = true)
    (hvalue : literal.toJson? = some value) :
    Collected (some literal.scalarType)
      (if values.any (Json.equal value) then values else values ++ [value]) := by
  have literals : ∀ old ∈ values, ∃ other : Literal, other.toJson? = some old ∧
      some literal.scalarType = some other.scalarType := by
    intro old mem
    obtain ⟨other, hother, rfl⟩ := h.literals old mem
    exact ⟨other, hother, congrArg some (by simpa using same : other.scalarType = _).symm⟩
  split
  · next known =>
    refine ⟨h.distinct, literals, fun _ empty => ?_⟩
    rw [empty] at known
    cases known
  · next new =>
    have different : ∀ old ∈ values, value.equal old = false := by simpa using new
    refine ⟨?_, ?_, fun _ => List.append_ne_nil_of_right_ne_nil _ (List.cons_ne_nil _ _)⟩
    · exact List.pairwise_append.mpr ⟨h.distinct, List.pairwise_singleton _ _,
        fun old mem => List.forall_mem_singleton.mpr (different old mem)⟩
    · intro old mem
      rcases List.mem_append.mp mem with mem | mem
      · exact literals old mem
      · obtain rfl := List.mem_singleton.mp mem
        exact ⟨literal, hvalue, rfl⟩

theorem Collected.of_literalValues {location : Location} {members : List (Option Literal)}
    {scalar : Option String} {values : List Json} (h : Collected scalar values)
    {found : String × List Json}
    (hfound : literalValues location scalar values members = .ok (some found)) :
    Collected (some found.1) found.2 := by
  induction members generalizing scalar values with
  | nil =>
    obtain ⟨_, rfl, rfl⟩ := Option.map_eq_some_iff.mp (Except.ok.inj hfound)
    exact h
  | cons member rest ih =>
    cases member with
    | none => cases hfound
    | some literal =>
      simp only [literalValues] at hfound
      split at hfound
      · next same =>
        split at hfound
        · cases hfound
        · next value hvalue => exact ih (h.step same hvalue) hfound
      · cases hfound

theorem Collected.sound {scalar : String} {values : List Json}
    (h : Collected (some scalar) values) : (enumeration scalar values).Sound := by
  have typed : ∀ value ∈ values, value.typeName = scalar ∧ value.Unambiguous := by
    intro value mem
    obtain ⟨literal, hvalue, hscalar⟩ := h.literals value mem
    cases hscalar
    exact ⟨Literal.typeName_of_toJson? hvalue, Literal.unambiguous_of_toJson? hvalue⟩
  unfold enumeration
  split
  · refine Members.Sound.of_absent (.object (by decide) ?_) (by decide)
    exact List.forall_mem_singleton.mpr (.string _)
  · refine ⟨.object (by simp [Members.names]) ?_, .object ⟨nofun, ?_, nofun, nofun, nofun⟩ nofun⟩
    · simpa using ⟨.string scalar, .array fun value mem => (typed value mem).2⟩
    · intro value hvalue
      cases hvalue
      exact ⟨values, scalar, rfl, rfl, h.nonempty (by simp), h.distinct,
        fun one mem => (typed one mem).1⟩

theorem sound_of_literalEnum {location : Location} {members : List (Option Literal)}
    {document : Members} (h : literalEnum location members = .ok (some document)) :
    document.Sound := by
  unfold literalEnum at h
  split at h
  · cases h
  · obtain ⟨found, hfound, h⟩ := bind_eq_ok.mp h
    cases found with
    | none => cases h
    | some found =>
      cases h
      exact (Collected.start.of_literalValues hfound).sound

theorem sound_of_literal {literal : Literal} {value : Json} (h : literal.toJson? = some value) :
    (enumeration literal.scalarType [value]).Sound :=
  (Collected.start.step rfl h).sound

/-! ## Joining -/

/-- Different documents, two or more, are the alternatives of a coherent document. -/
theorem sound_alternatives {documents : List Members} (several : 2 ≤ documents.length)
    (sound : ∀ document ∈ documents, document.Sound)
    (different : documents.Pairwise fun document later =>
      (Json.object document).key ≠ (Json.object later).key) :
    Members.Sound [("oneOf", .array (documents.map Json.object))] := by
  have notAlike : (documents.map Json.object).Pairwise fun arm later => ¬ arm.Alike later := by
    rw [List.pairwise_map]
    refine different.imp_of_mem fun {document later} hdocument hlater hkeys alike => hkeys ?_
    exact Json.key_eq_of_alike alike (sound document hdocument).unambiguous
      (sound later hlater).unambiguous
  refine ⟨.object (List.nodup_singleton _) ?_, .object ⟨?_, nofun, nofun, nofun, nofun⟩ ?_⟩
  · refine List.forall_mem_singleton.mpr (.array ?_)
    intro arm mem
    obtain ⟨document, hdocument, rfl⟩ := List.mem_map.mp mem
    exact (sound document hdocument).unambiguous
  · intro value found
    cases found
    exact ⟨_, rfl, by simpa using several, notAlike⟩
  · intro inner hinner
    cases hinner with
    | alternative found mem =>
      cases found
      obtain ⟨document, hdocument, rfl⟩ := List.mem_map.mp mem
      exact (sound document hdocument).coherent
    | property found => cases found
    | additionalProperties found => cases found
    | items found => cases found
    | item found => cases found
    | additionalItems found => cases found

/-- Of a list, only the alternatives matter; a discriminator says nothing of its own. -/
theorem sound_listed {documents : List Members} (several : 2 ≤ documents.length)
    (sound : ∀ document ∈ documents, document.Sound)
    (different : documents.Pairwise fun document later =>
      (Json.object document).key ≠ (Json.object later).key) : (listed documents).Sound := by
  have alternatives := sound_alternatives several sound different
  unfold listed
  split
  · next name _ =>
    refine alternatives.of_get?_eq (.object (by simp [Members.names]) ?_) fun other hother => ?_
    · intro member mem
      rcases List.mem_append.mp mem with mem | mem
      · exact alternatives.unambiguous.of_mem mem
      · obtain rfl := List.mem_singleton.mp mem
        exact .object (List.nodup_singleton _) (List.forall_mem_singleton.mpr (.string name))
    · have notIt : other ≠ "discriminator" := ne_of_mem_of_not_mem hother (by decide)
      simp [Members.get?, List.lookup_cons, beq_eq_false_iff_ne.mpr notIt]
  · exact alternatives

theorem sound_join {documents : List Members} (nonempty : documents ≠ [])
    (sound : ∀ document ∈ documents, document.Sound) : (join documents).Sound := by
  have kept : ∀ document ∈ distinct [] documents, document.Sound :=
    fun document mem => sound document ((distinct_sublist [] documents).subset mem)
  rcases join_cases nonempty with ⟨only, honly, same⟩ | ⟨several, same⟩
  · rw [same]
    exact kept only (honly ▸ List.mem_singleton_self only)
  · rw [same]
    exact sound_listed several kept (pairwise_distinct [] documents)

end Alternatives

/-! ## Structs -/

namespace Projection

variable {fields : List (Field Schema)} {properties : Members} {others : Option Members}

theorem unambiguous_ofStruct (values : ∀ member ∈ properties, member.2.Unambiguous)
    (hothers : ∀ document, others = some document → (Json.object document).Unambiguous) :
    (Json.object (ofStruct fields properties others)).Unambiguous := by
  have index : ((others.map Json.object).getD (.bool false)).Unambiguous := by
    cases others with
    | none => exact .bool false
    | some index => exact hothers index rfl
  have required : (Json.array ((fields.filter fun field => !field.optional).map fun field =>
      Json.string field.name)).Unambiguous := by
    refine .array fun text mem => ?_
    obtain ⟨field, -, rfl⟩ := List.mem_map.mp mem
    exact .string field.name
  have written : (Json.object (Members.ofList properties)).Unambiguous :=
    Json.unambiguous_empty.putAll values
  exact .object (by simp [ofStruct, Members.names]) (List.forall_mem_cons.mpr ⟨.string "object",
    List.forall_mem_cons.mpr ⟨written, List.forall_mem_cons.mpr
      ⟨required, List.forall_mem_singleton.mpr index⟩⟩⟩)

/-- The required names of a struct are some of its properties, in their order. -/
theorem coherent_ofStruct (nodup : properties.names.Nodup)
    (names : properties.names = fields.map Field.name) :
    (ofStruct fields properties others).Coherent := by
  have sublist : ((fields.filter fun field => !field.optional).map Field.name).Sublist
      properties.names := names ▸ List.filter_sublist.map Field.name
  simp only [ofStruct, Members.ofList_eq_self nodup]
  refine ⟨nofun, nofun, ?_, nofun, nofun⟩
  intro value found
  cases found
  refine ⟨properties, _, rfl, ?_, nodup.sublist sublist, sublist⟩
  rw [List.map_map]
  rfl

theorem sound_ofStruct (nodup : (fields.map Field.name).Nodup)
    (names : properties.names = fields.map Field.name)
    (hproperties : ∀ member ∈ properties, ∃ document : Members, document.Sound ∧
      member.2 = .object document)
    (hothers : ∀ document, others = some document → document.Sound) :
    (ofStruct fields properties others).Sound := by
  have different : properties.names.Nodup := names ▸ nodup
  have values : ∀ member ∈ properties, member.2.Unambiguous := by
    intro member mem
    obtain ⟨inner, sound, hinner⟩ := hproperties member mem
    exact hinner ▸ sound.unambiguous
  refine ⟨unambiguous_ofStruct values fun document h => (hothers document h).unambiguous,
    .object (coherent_ofStruct different names) ?_⟩
  simp only [ofStruct, Members.ofList_eq_self different]
  intro inner hinner
  cases hinner with
  | property found mem =>
    cases found
    obtain ⟨document, sound, rfl⟩ := hproperties _ mem
    exact sound.coherent
  | additionalProperties found =>
    cases others with
    | none => cases found
    | some index =>
      cases found
      exact (hothers _ rfl).coherent
  | items found => cases found
  | item found => cases found
  | additionalItems found => cases found
  | alternative found => cases found

end Projection

/-! ## Tuples -/

namespace Sequence

variable {documents : List Members} {least most : Option Nat} {rest : Option Members}

theorem nodup_names_laid (documents : List Members) (least most : Option Nat)
    (rest : Option Members) : (laid documents least most rest).names.Nodup := by
  cases least <;> cases most <;> cases rest <;> simp [laid, Members.names, Members.ofOption]

theorem unambiguous_laid (valid : ∀ document ∈ documents, (Json.object document).Unambiguous)
    (hrest : ∀ document, rest = some document → (Json.object document).Unambiguous) :
    (Json.object (laid documents least most rest)).Unambiguous := by
  have items : (itemsOf documents).Unambiguous := by
    rcases itemsOf_cases documents with ⟨only, rfl, same⟩ | ⟨-, same⟩
    · exact same ▸ valid only (List.mem_singleton_self only)
    · rw [same]
      refine .array fun item mem => ?_
      obtain ⟨document, hdocument, rfl⟩ := List.mem_map.mp mem
      exact valid document hdocument
  have number : ∀ n, (Json.ofNat n).Unambiguous := fun n => .number _
  refine .object (nodup_names_laid documents least most rest) ?_
  · have type := Json.Unambiguous.string "array"
    cases least <;> cases most <;> cases rest <;>
      simp_all [laid, Members.ofOption]

/-- A laid out document speaks of items only. -/
theorem get?_laid_ne {name : String}
    (h : name ∈ ["oneOf", "enum", "properties", "additionalProperties"]) (value : Json) :
    (laid documents least most rest).get? name ≠ some value := by
  rw [absent_laid h]
  exact nofun

theorem coherent_laid (fits : ∀ m n, least = some m → most = some n → m ≤ n)
    (positional : documents.length ≠ 1 → (∃ m, least = some m ∧ m ≤ documents.length) ∧
      (rest = none → most = some documents.length)) :
    (laid documents least most rest).Coherent := by
  refine ⟨?_, ?_, ?_, ?_, ?_⟩
  · exact fun value found => absurd found (get?_laid_ne (by decide) value)
  · exact fun value found => absurd found (get?_laid_ne (by decide) value)
  · exact fun value found => absurd found (get?_laid_ne (by decide) value)
  · intro low high hlow hhigh
    rw [minItems_laid] at hlow
    rw [maxItems_laid] at hhigh
    obtain ⟨m, hm, rfl⟩ := Option.map_eq_some_iff.mp hlow
    obtain ⟨n, hn, rfl⟩ := Option.map_eq_some_iff.mp hhigh
    exact ⟨m, n, rfl, rfl, fits m n hm hn⟩
  · intro entries found
    rw [items_laid] at found
    rcases itemsOf_cases documents with ⟨only, -, same⟩ | ⟨several, same⟩
    · rw [same] at found
      cases found
    · rw [same] at found
      cases found
      obtain ⟨⟨m, hm, le⟩, exact_of_none⟩ := positional several
      rw [List.length_map, minItems_laid, maxItems_laid, additionalItems_laid, hm]
      refine ⟨several, fun none => ?_, m, rfl, le⟩
      rw [exact_of_none (Option.map_eq_none_iff.mp none)]
      rfl

/-- The schemas in a laid out document are those it was laid out from. -/
theorem coherentThroughout_of_inner_laid (sound : ∀ document ∈ documents, document.Sound)
    (hrest : ∀ document, rest = some document → document.Sound) {inner : Json}
    (h : (laid documents least most rest).Inner inner) : inner.CoherentThroughout := by
  cases h with
  | property found => exact absurd found (get?_laid_ne (by decide) _)
  | additionalProperties found => exact absurd found (get?_laid_ne (by decide) _)
  | alternative found => exact absurd found (get?_laid_ne (by decide) _)
  | items found =>
    rw [items_laid] at found
    rcases itemsOf_cases documents with ⟨only, rfl, same⟩ | ⟨-, same⟩
    · rw [same] at found
      cases found
      exact (sound _ (List.mem_singleton_self _)).coherent
    · rw [same] at found
      cases found
  | item found mem =>
    rw [items_laid] at found
    rcases itemsOf_cases documents with ⟨only, -, same⟩ | ⟨-, same⟩
    · rw [same] at found
      cases found
    · rw [same] at found
      cases found
      obtain ⟨document, hdocument, rfl⟩ := List.mem_map.mp mem
      exact (sound document hdocument).coherent
  | additionalItems found =>
    rw [additionalItems_laid] at found
    obtain ⟨document, hdocument, rfl⟩ := Option.map_eq_some_iff.mp found
    exact (hrest document hdocument).coherent

theorem sound_laid (sound : ∀ document ∈ documents, document.Sound)
    (hrest : ∀ document, rest = some document → document.Sound)
    (fits : ∀ m n, least = some m → most = some n → m ≤ n)
    (positional : documents.length ≠ 1 → (∃ m, least = some m ∧ m ≤ documents.length) ∧
      (rest = none → most = some documents.length)) :
    (laid documents least most rest).Sound where
  unambiguous := unambiguous_laid (fun document mem => (sound document mem).unambiguous)
    fun document h => (hrest document h).unambiguous
  coherent := .object (coherent_laid fits positional) fun _ inner =>
    coherentThroughout_of_inner_laid sound hrest inner

theorem sound_document {elements : List (Element Schema)}
    (count : documents.length = elements.length)
    (sound : ∀ document ∈ documents, document.Sound)
    (hrest : ∀ document, rest = some document → document.Sound) :
    (document elements documents rest).Sound := by
  have le : requiredCount elements ≤ documents.length := count ▸ requiredCount_le elements
  rcases document_cases elements documents rest with ⟨others, -, rfl, same⟩ | ⟨single, same⟩ |
    ⟨others, -, rfl, -, same⟩ | ⟨rfl, same⟩
  · rw [same]
    exact sound_laid (List.forall_mem_singleton.mpr (hrest others rfl)) nofun nofun
      fun several => absurd rfl several
  · rw [same]
    obtain ⟨only, rfl⟩ := exists_of_isNonEmptyList single
    exact sound_laid sound nofun nofun fun several => absurd rfl several
  · rw [same]
    exact sound_laid sound hrest nofun fun _ => ⟨⟨_, rfl, le⟩, nofun⟩
  · rw [same]
    refine sound_laid sound nofun ?_ fun _ => ⟨⟨_, rfl, le⟩, fun _ => rfl⟩
    intro m n hm hn
    cases hm
    cases hn
    exact le

end Sequence

/-! ## Writing over documents -/

/-- The hints may be written over a document without harm. -/
def Constraint.Harmless (constraint : Constraint) : Prop :=
  ∀ hint ∈ constraint.hints, hint.1 ∉ Members.structural ∧ hint.2.Unambiguous

theorem Constraint.sound_applyAll {document : Members} (sound : document.Sound)
    {constraints : List Constraint} (harmless : ∀ constraint ∈ constraints, constraint.Harmless) :
    (applyAll document constraints).Sound := by
  rw [applyAll_eq_putAll]
  refine sound.putAll fun write hwrite => ?_
  obtain ⟨hint, hhint, hwrite⟩ := List.mem_flatMap.mp hwrite
  obtain ⟨constraint, hconstraint, hhint⟩ := List.mem_flatMap.mp hhint
  obtain ⟨allowed, unambiguous⟩ := harmless constraint hconstraint hint hhint
  rcases mem_writes hwrite with rfl | ⟨_, -, -, rfl | rfl⟩ | ⟨_, -, -, rfl | rfl⟩
  · exact ⟨allowed, unambiguous⟩
  · exact ⟨by simp [Members.structural], unambiguous⟩
  · exact ⟨by simp [Members.structural], .bool true⟩
  · exact ⟨by simp [Members.structural], unambiguous⟩
  · exact ⟨by simp [Members.structural], .bool true⟩

/-- What annotations write over a document. -/
def Annotations.writes (notes : Annotations) : Members :=
  Members.ofOption "title" (notes.published.title.map Json.string) ++
    (Members.ofOption "description" (notes.published.description.map Json.string) ++
      if notes.published.examples.isEmpty then []
      else [("examples", .array notes.published.examples)])

theorem Annotations.overlay_eq_putAll (notes : Annotations) (document : Members) :
    notes.overlay document = document.putAll notes.writes := by
  simp only [overlay, writes]
  cases notes.published.title <;> cases notes.published.description <;> split <;> rfl

theorem Annotations.mem_writes {notes : Annotations} {write : String × Json}
    (h : write ∈ notes.writes) : write.1 ∈ ["title", "description", "examples"] ∧
      ((∃ text, write.2 = .string text) ∨ write.2 = .array notes.examples) := by
  have text : ∀ {name : String} {text? : Option String},
      write ∈ Members.ofOption name (text?.map Json.string) →
        write.1 = name ∧ ∃ text, write.2 = .string text := by
    intro name text? mem
    obtain ⟨value, told, rfl⟩ := Members.mem_ofOption.mp mem
    obtain ⟨text, -, rfl⟩ := Option.map_eq_some_iff.mp told
    exact ⟨rfl, text, rfl⟩
  rcases List.mem_append.mp h with mem | h
  · obtain ⟨name, value⟩ := text mem
    exact ⟨by simp [name], .inl value⟩
  · rcases List.mem_append.mp h with mem | h
    · obtain ⟨name, value⟩ := text mem
      exact ⟨by simp [name], .inl value⟩
    · split at h
      · cases h
      · obtain rfl := List.mem_singleton.mp h
        exact ⟨by simp, .inr rfl⟩

/-- Annotations leave all other members alone. -/
theorem Annotations.get?_overlay (notes : Annotations) (document : Members) {name : String}
    (h : name ∉ ["title", "description", "examples"]) :
    (notes.overlay document).get? name = document.get? name := by
  rw [overlay_eq_putAll]
  apply Members.get?_putAll_of_not_mem
  intro write mem
  exact ne_of_mem_of_not_mem (mem_writes mem).1 h

theorem Annotations.unambiguous_of_mem_writes {notes : Annotations}
    (examples : ∀ value ∈ notes.examples, value.Unambiguous) {write : String × Json}
    (h : write ∈ notes.writes) : write.2.Unambiguous := by
  rcases (mem_writes h).2 with ⟨text, same⟩ | same
  · exact same ▸ .string text
  · exact same ▸ .array examples

theorem Annotations.sound_overlay {notes : Annotations} {document : Members}
    (sound : document.Sound) (examples : ∀ value ∈ notes.examples, value.Unambiguous) :
    (notes.overlay document).Sound := by
  rw [overlay_eq_putAll]
  refine sound.putAll fun write hwrite => ⟨?_, unambiguous_of_mem_writes examples hwrite⟩
  have apart : ∀ name ∈ ["title", "description", "examples"], name ∉ Members.structural := by decide
  exact apart write.1 (mem_writes hwrite).1

theorem Members.get?_putAll_single {document : Members} (nodup : document.names.Nodup)
    {name other : String} (h : other ≠ name) (value : Json) :
    (putAll [(name, value)] document).get? other = document.get? other := by
  rw [get?_putAll nodup]
  simp [get?, List.lookup_cons, beq_eq_false_iff_ne.mpr h]

/-- The heading of a document changes none of its other members. -/
theorem ProjectionOptions.get?_headed (options : ProjectionOptions) {document : Members}
    (nodup : document.names.Nodup) {name : String} (h : name ≠ "$schema") :
    (options.headed document).get? name = document.get? name := by
  unfold headed
  split
  · exact Members.get?_putAll_single nodup h _
  · rfl

theorem ProjectionOptions.sound_headed (options : ProjectionOptions) {document : Members}
    (sound : document.Sound) : (options.headed document).Sound := by
  unfold headed
  split
  · have heading : (Json.object [("$schema", .string metaSchemaUri)]).Unambiguous :=
      .object (by decide) (List.forall_mem_singleton.mpr (.string _))
    have values : ∀ member ∈ document, member.2.Unambiguous := fun _ => sound.unambiguous.of_mem
    refine sound.of_get?_eq (heading.putAll values) fun name hname => ?_
    have other : name ≠ "$schema" := ne_of_mem_of_not_mem hname (by decide)
    exact Members.get?_putAll_single sound.unambiguous.nodup other _
  · exact sound

/-! ## Projections -/

/-- The shape can be built, and its hints do no harm. -/
structure Shape.Admissible {σ : Type} (shape : Shape σ) : Prop where
  fields : ∀ fields index, shape = .struct fields index → (fields.map Field.name).Nodup
  members : ∀ members, shape = .union members → members ≠ []
  hints : ∀ base constraints, shape = .refinement base constraints →
    ∀ constraint ∈ constraints, constraint.Harmless

/-- The schemas of the graph can be built, and their hints do no harm. -/
def Graph.Admissible (graph : Graph) : Prop :=
  ∀ schema, Reachable graph.bindings graph.root schema →
    schema.shape.Admissible ∧ ∀ value ∈ schema.notes.examples, value.Unambiguous

theorem Shape.Makes.sound {part : Bool → Schema → Members → Prop}
    {target : Reference Schema → Members → Prop} {inField : Bool} {shape : Shape Schema}
    {document : Members} (made : shape.Makes part target inField document)
    (admissible : shape.Admissible)
    (parts : ∀ inField' inner document, shape.Part inner → part inField' inner document →
      document.Sound)
    (targets : ∀ reference document, shape = .recursive reference → target reference document →
      document.Sound) : document.Sound := by
  cases made with
  | primitive primitive => exact Projection.sound_ofPrimitive primitive
  | literal hvalue => exact Alternatives.sound_of_literal hvalue
  | @struct fields index properties others hproperties hothers =>
    have names : properties.names = fields.map Field.name := names_of_fields _ hproperties
    refine Projection.sound_ofStruct (admissible.fields fields index rfl) names ?_ ?_
    · intro member mem
      obtain ⟨field, hfield, document, hdocument, rfl⟩ := exists_of_mem_right hproperties mem
      exact ⟨document, parts _ _ _ (.field hfield) hdocument, rfl⟩
    · rintro document rfl
      cases hothers with
      | some hindex => exact parts _ _ _ .index hindex
  | @tuple elements rest documents others hdocuments hothers =>
    refine Sequence.sound_document hdocuments.length_eq.symm ?_ ?_
    · intro document mem
      obtain ⟨element, helement, hdocument⟩ := exists_of_mem_right hdocuments mem
      exact parts _ _ _ (.element helement) hdocument
    · rintro document rfl
      cases hothers with
      | some hrest => exact parts _ _ _ .rest hrest
  | enumeration found => exact Alternatives.sound_of_literalEnum found
  | @union members documents hdocuments =>
    refine Alternatives.sound_join ?_ ?_
    · rintro rfl
      have none := Projection.filter_counts_ne_nil inField (admissible.members members rfl)
      exact none (List.forall₂_nil_right_iff.mp hdocuments)
    · intro document mem
      obtain ⟨member, hmember, hdocument⟩ := exists_of_mem_right hdocuments mem
      exact parts _ _ _ (.member (List.mem_filter.mp hmember).1) hdocument
  | refinement constraints hbase =>
    exact Constraint.sound_applyAll (parts _ _ _ .base hbase) (admissible.hints _ _ rfl)
  | recursive htarget => exact targets _ _ rfl htarget
  | hidden => exact Projection.sound_nil

namespace Projection

variable {bindings : Bindings} {schema : Schema} {document : Members}

theorem sound_of_node {follow : Trail → Reference Schema → Outcome} {inField : Bool}
    {trail : Trail}
    (admissible : ∀ other, Reachable bindings schema other →
      other.shape.Admissible ∧ ∀ value ∈ other.notes.examples, value.Unambiguous)
    (targets : ∀ other, Reachable bindings schema other → ∀ reference,
      other.shape = .recursive reference → ∀ trail document,
        follow trail reference = .ok document → document.Sound)
    (h : node follow inField trail schema = .ok document) : document.Sound := by
  induction schema using Schema.induction_on_parts generalizing inField trail document with
  | node identity shape notes ih =>
    obtain ⟨made, hmade, h⟩ := bind_eq_ok.mp h
    cases h
    obtain ⟨hshape, examples⟩ := admissible _ .refl
    refine Annotations.sound_overlay ((makes_of_shapeOf_eq_ok hmade).sound hshape ?_ ?_) examples
    · rintro inField' inner document part ⟨trail', hinner⟩
      have into : Step bindings (.node identity shape notes) inner := .part part
      exact ih inner part (fun other reached => admissible other (.head into reached))
        (fun other reached => targets other (.head into reached)) hinner
    · intro reference document hreference hfollow
      exact targets _ .refl reference hreference _ document hfollow

/-- What a reference leads to is sound: a stub, or the document of a schema further on. -/
theorem sound_of_follow {cap remaining : Nat} {reference : Reference Schema} {trail : Trail}
    (hshape : schema.shape = .recursive reference)
    (admissible : ∀ other, Reachable bindings schema other →
      other.shape.Admissible ∧ ∀ value ∈ other.notes.examples, value.Unambiguous)
    (h : follow bindings cap remaining trail reference = .ok document) : document.Sound := by
  induction remaining generalizing schema reference trail document with
  | zero => cases h
  | succ remaining ih =>
    simp only [follow] at h
    split at h
    · cases h
      exact sound_stub
    · next target resolved =>
      have into : Step bindings schema target := .target hshape resolved
      split at h
      · cases h
        exact sound_stub
      · refine sound_of_node (fun other reached => admissible other (.head into reached)) ?_ h
        intro other reached reference' hreference trail' document' hfollow
        exact ih hreference
          (fun one further => admissible one (.head into (reached.trans further))) hfollow

end Projection

namespace Graph

/-- Every schema in the document of a graph is coherent, if the graph can be built and its hints do
no harm. -/
theorem project_coherent (graph : Graph) (options : ProjectionOptions)
    (admissible : graph.Admissible) {document : Members}
    (h : graph.project options = .ok document) {position : Json}
    (reached : (Json.object document).Position position) :
    ∃ members : Members, position = .object members ∧ members.Coherent := by
  have sound : document.Sound := by
    rw [project_eq] at h
    obtain ⟨projected, hprojected, h⟩ := bind_eq_ok.mp h
    cases h
    refine options.sound_headed (Projection.sound_of_node admissible ?_ hprojected)
    intro other further reference hreference trail document hfollow
    exact Projection.sound_of_follow hreference
      (fun one beyond => admissible one (further.trans beyond)) hfollow
  cases sound.coherent.of_position reached with
  | object coherent _ => exact ⟨_, rfl, coherent⟩

/-! ## A figure -/

def coordinate : Schema := .make (.step 0) (.primitive .number)

def corner : Schema := .make (.step 1) (.tuple [⟨coordinate, false⟩, ⟨coordinate, true⟩] none)

def kind : Schema :=
  .make (.step 2) (.union [.make (.step 3) (.literal (.string "circle")),
    .make (.step 4) (.literal (.string "square"))])

/-- A circle or a square at a corner. -/
def figure : Graph :=
  ⟨[], .make (.step 5) (.struct [⟨"kind", kind, false⟩, ⟨"corner", corner, true⟩] none)⟩

theorem figure_reachable {schema : Schema} (reached : Reachable figure.bindings figure.root schema) :
    schema = figure.root ∨ schema = kind ∨ schema = corner ∨ schema = coordinate ∨
      ∃ number text, schema = .make (.step number) (.literal (.string text)) := by
  induction reached with
  | refl => exact .inl rfl
  | @tail one other _ step ih =>
    rcases ih with rfl | rfl | rfl | rfl | ⟨number, text, rfl⟩
    · cases step with
      | part part =>
        cases part with
        | field mem =>
          rcases List.mem_cons.mp mem with rfl | mem
          · exact .inr (.inl rfl)
          · obtain rfl := List.mem_singleton.mp mem
            exact .inr (.inr (.inl rfl))
      | target hshape => cases hshape
    · cases step with
      | part part =>
        cases part with
        | member mem =>
          rcases List.mem_cons.mp mem with rfl | mem
          · exact .inr (.inr (.inr (.inr ⟨_, _, rfl⟩)))
          · obtain rfl := List.mem_singleton.mp mem
            exact .inr (.inr (.inr (.inr ⟨_, _, rfl⟩)))
      | target hshape => cases hshape
    · cases step with
      | part part =>
        cases part with
        | element mem =>
          rcases List.mem_cons.mp mem with rfl | mem
          · exact .inr (.inr (.inr (.inl rfl)))
          · obtain rfl := List.mem_singleton.mp mem
            exact .inr (.inr (.inr (.inl rfl)))
      | target hshape => cases hshape
    · cases step with
      | part part => cases part
      | target hshape => cases hshape
    · cases step with
      | part part => cases part
      | target hshape => cases hshape

theorem figure_admissible : figure.Admissible := by
  intro schema reached
  rcases figure_reachable reached with rfl | rfl | rfl | rfl | ⟨number, text, rfl⟩
  · exact ⟨⟨fun fields index h => by cases h; decide, nofun, nofun⟩, nofun⟩
  · exact ⟨⟨nofun, fun members h => by cases h; exact List.cons_ne_nil _ _, nofun⟩, nofun⟩
  · exact ⟨⟨nofun, nofun, nofun⟩, nofun⟩
  · exact ⟨⟨nofun, nofun, nofun⟩, nofun⟩
  · exact ⟨⟨nofun, nofun, nofun⟩, nofun⟩

/-- The document of the corner, one of two coordinates at least. -/
def cornerDocument : Members :=
  [("type", .string "array"),
    ("items", .array [.object [("type", .string "number")], .object [("type", .string "number")]]),
    ("minItems", .ofNat 1), ("maxItems", .ofNat 2)]

theorem figure_coherent :
    figure.Admissible ∧ ∃ document, figure.project .standard = .ok document ∧
      (Json.object document).Position (.object cornerDocument) ∧
      ∃ members : Members, Json.object cornerDocument = .object members ∧ members.Coherent := by
  obtain ⟨document, projected, properties, found, mem⟩ : ∃ document : Members,
      figure.project .standard = .ok document ∧ ∃ properties : Members,
        document.get? "properties" = some (.object properties) ∧
        ("corner", .object cornerDocument) ∈ properties :=
    ⟨_, rfl, _, rfl, .tail _ (.head _)⟩
  have position : (Json.object document).Position (.object cornerDocument) :=
    .inner .root (.property found mem)
  exact ⟨figure_admissible, document, projected, position,
    project_coherent figure .standard figure_admissible projected position⟩

end Graph

end SchemaDoc
