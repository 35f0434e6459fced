import SchemaDoc.Proofs.Projection.Blame
import SchemaDoc.Proofs.Projection.CoherentDocuments
import SchemaDoc.Proofs.Projection.OneNumber

/-!
# Where error locations point

A bare schema with one number that is not finite is projected to an error at a location. With a
finite number in its place the schema has a document, and the location, read as a pointer into this
document, leads to the enumeration of the number exactly if the schema is `Direct`.
-/
namespace SchemaDoc

theorem Alternatives.showsAt_enumeration {values : List Json} {d : Double}
    (mem : .number (.ofDouble d) ∈ values) :
    (Json.object (enumeration "number" values)).ShowsAt [] d :=
  Json.showsAt_nil.mpr ⟨values, rfl, mem⟩

theorem Sequence.showsAt_laid_item {earlier later : List Members} {document : Members}
    {least most : Option Nat} {rest : Option Members} {tokens : List String} {d : Double}
    (noPlace : document.get? "0" = none) :
    (Json.object (laid (earlier ++ document :: later) least most rest)).ShowsAt
        ("items" :: toString earlier.length :: tokens) d ↔
      earlier ++ later ≠ [] ∧ (Json.object document).ShowsAt tokens d := by
  rw [Json.showsAt_member items_laid]
  by_cases alone : earlier ++ later = []
  · obtain ⟨rfl, rfl⟩ := List.append_eq_nil_iff.mp alone
    exact iff_of_false (Json.not_showsAt_member noPlace) fun h => h.1 rfl
  · rcases itemsOf_cases (earlier ++ document :: later) with ⟨only, single, -⟩ | ⟨-, items⟩
    · have length := congrArg List.length single
      have := List.length_pos_iff.mpr alone
      simp only [List.length_append, List.length_cons, List.length_nil] at length this
      omega
    · rw [items, Json.showsAt_item, and_iff_right alone]
      simp

theorem Alternatives.showsAt_listed {first kept : List Members} {document : Members} {place : Nat}
    {tokens : List String} {d : Double} (le : first.length ≤ place)
    (quiet : ∀ other ∈ kept, ¬ (Json.object other).Lists (Number.ofDouble d).chars) :
    (Json.object (listed (first ++ document :: kept))).ShowsAt
        ("oneOf" :: toString place :: tokens) d ↔
      first.length = place ∧ (Json.object document).ShowsAt tokens d := by
  have oneOf : (listed (first ++ document :: kept)).get? "oneOf" =
      some (.array ((first ++ document :: kept).map Json.object)) := by
    unfold listed
    split <;> rfl
  rw [Json.showsAt_member oneOf, Json.showsAt_item, List.getElem?_map,
    List.getElem?_append_right le]
  constructor
  · rintro ⟨inner, found, shown⟩
    obtain ⟨other, hother, rfl⟩ := Option.map_eq_some_iff.mp found
    cases further : place - first.length with
    | zero =>
      rw [further] at hother
      cases hother
      exact ⟨by omega, shown⟩
    | succ n =>
      rw [further, List.getElem?_cons_succ] at hother
      exact absurd shown.lists (quiet other (List.mem_of_getElem? hother))
  · rintro ⟨rfl, shown⟩
    exact ⟨.object document, by simp, shown⟩

theorem Alternatives.not_showsAt_listed {documents : List Members} {d : Double} :
    ¬ (Json.object (listed documents)).ShowsAt [] d := by
  have noEnum : (listed documents).get? "enum" = none := by
    unfold listed
    split <;> rfl
  rw [Json.showsAt_nil, noEnum]
  rintro ⟨values, found, -⟩
  cases found

namespace Schema

/-- A schema with a number that is not finite is blamed at a location, and the same schema with a
finite number in its place has a document. If the finite number is written like no other, the
location leads to it in the document exactly if the schema is direct. -/
structure Located (text : List Char) (d : Double) (inField : Bool) (schema settled : Schema)
    (steps : Location) (document : Members) : Prop where
  blames : schema.Blames inField steps
  yields : settled.Yields inField document
  noPlace : document.get? "0" = none
  lists : (Number.ofDouble d).chars = text → (Json.object document).Lists text
  shows : (Number.ofDouble d).chars = text →
    ((Json.object document).ShowsAt (Location.tokens steps) d ↔ schema.Direct inField)

section

variable {text : List Char} {d : Double} {inField : Bool} {identity : Identity} {steps : Location}
  {document : Members} {schema : Schema}

theorem located_number {x : Binary64} (hx : x.finite? = none) :
    Located text d inField (.node identity (.literal (.number x)) .none)
      (.node identity (.literal (.number (.finite d))) .none) []
      (Alternatives.enumeration "number" [.number (.ofDouble d)]) := by
  have shown : (Json.object (Alternatives.enumeration "number" [.number (.ofDouble d)])).ShowsAt
      [] d := Alternatives.showsAt_enumeration (List.mem_singleton_self _)
  refine ⟨blames_number hx, yields_literal rfl, Alternatives.get?_zero_enumeration _ _, ?_, ?_⟩
  · rintro rfl
    exact shown.lists
  · exact fun _ => ⟨fun _ => .number hx, fun _ => shown⟩

/-! ## Structs -/

theorem exists_document (settled : schema.Settled text) : ∃ document, schema.Yields inField document :=
  (settled.exists_yields inField).imp fun _ h => h.1

section

variable {inner inner' : Schema}

theorem located_field {before after : List (Field Schema)} {name : String} {optional : Bool}
    {index : Option Schema} (h : Located text d true inner inner' steps document)
    (nodup : ((before ++ ⟨name, inner, optional⟩ :: after).map Field.name).Nodup)
    (hfields : ∀ field ∈ before ++ after, field.node.Settled text)
    (hindex : ∀ other, index = some other → other.Settled text) :
    ∃ document, Located text d inField
      (.node identity (.struct (before ++ ⟨name, inner, optional⟩ :: after) index) .none)
      (.node identity (.struct (before ++ ⟨name, inner', optional⟩ :: after) index) .none)
      (.property name :: steps) document := by
  obtain ⟨hbefore, hafter⟩ := List.forall_mem_append.mp hfields
  obtain ⟨earlier, hearlier, -⟩ := exists_properties fun field mem =>
    (hbefore field mem).exists_yields true
  obtain ⟨later, hlater, -⟩ := exists_properties fun field mem =>
    (hafter field mem).exists_yields true
  obtain ⟨others, hothers, -⟩ := exists_optional fun other hother =>
    (hindex other hother).exists_yields false
  have made : List.Forall₂ PropertyOf (before ++ ⟨name, inner', optional⟩ :: after)
      (earlier ++ (name, Json.object document) :: later) :=
    List.rel_append hearlier (.cons ⟨document, h.yields, rfl⟩ hlater)
  have names : (Members.names (earlier ++ (name, Json.object document) :: later)).Nodup := by
    rw [names_of_properties made]
    simpa using nodup
  have mem : (name, Json.object document) ∈ earlier ++ (name, Json.object document) :: later :=
    List.mem_append_right _ List.mem_cons_self
  refine ⟨_, blames_field (fun field mem => exists_document (hbefore field mem)) h.blames,
    yields_struct made hothers, rfl, fun written => ?_, fun written => ?_⟩
  · exact (Projection.lists_ofStruct_iff names).mpr (.inl ⟨_, mem, h.lists written⟩)
  · have properties : (Json.object (Projection.ofStruct
        (before ++ ⟨name, inner', optional⟩ :: after)
        (earlier ++ (name, Json.object document) :: later) others)).child? "properties" =
          some (.object (earlier ++ (name, Json.object document) :: later)) :=
      congrArg (fun members => some (Json.object members)) (Members.ofList_eq_self names)
    rw [direct_field_iff hfields hindex, ← h.shows written]
    exact (Json.showsAt_member properties).trans (Json.showsAt_member (Members.get?_of_mem names mem))

theorem located_index {fields : List (Field Schema)}
    (h : Located text d false inner inner' steps document)
    (nodup : (fields.map Field.name).Nodup) (hfields : ∀ field ∈ fields, field.node.Settled text) :
    ∃ document, Located text d inField (.node identity (.struct fields (some inner)) .none)
      (.node identity (.struct fields (some inner')) .none)
      (.additionalProperties :: steps) document := by
  obtain ⟨properties, hproperties, -⟩ := exists_properties fun field mem =>
    (hfields field mem).exists_yields true
  refine ⟨_, blames_index (fun field mem => exists_document (hfields field mem)) h.blames,
    yields_struct hproperties (.some h.yields), rfl, fun written => ?_, fun written => ?_⟩
  · rw [Projection.lists_ofStruct_iff (names_of_properties hproperties ▸ nodup)]
    exact .inr ⟨document, rfl, h.lists written⟩
  · rw [direct_index_iff hfields, ← h.shows written]
    exact Json.showsAt_member rfl

/-! ## Tuples -/

theorem located_element {before after : List (Element Schema)} {optional : Bool}
    {rest : Option Schema} (h : Located text d false inner inner' steps document)
    (helements : ∀ element ∈ before ++ after, element.node.Settled text)
    (hrest : ∀ other, rest = some other → other.Settled text) :
    ∃ document, Located text d inField
      (.node identity (.tuple (before ++ ⟨inner, optional⟩ :: after) rest) .none)
      (.node identity (.tuple (before ++ ⟨inner', optional⟩ :: after) rest) .none)
      (.item before.length :: steps) document := by
  obtain ⟨hbefore, hafter⟩ := List.forall_mem_append.mp helements
  obtain ⟨earlier, hearlier, -⟩ := exists_documents fun element mem =>
    (hbefore element mem).exists_yields false
  obtain ⟨later, hlater, -⟩ := exists_documents fun element mem =>
    (hafter element mem).exists_yields false
  obtain ⟨others, hothers, -⟩ := exists_optional fun other hother =>
    (hrest other hother).exists_yields false
  have made : List.Forall₂ (fun element document => element.node.Yields false document)
      (before ++ ⟨inner', optional⟩ :: after) (earlier ++ document :: later) :=
    List.rel_append hearlier (.cons h.yields hlater)
  obtain ⟨least, most, further, laid⟩ := Sequence.exists_laid_of_ne_nil
    (List.append_ne_nil_of_right_ne_nil before (List.cons_ne_nil _ after))
    (earlier ++ document :: later) others
  have several : before ++ after ≠ [] ↔ earlier ++ later ≠ [] := by
    simp [← List.length_eq_zero_iff, hearlier.length_eq, hlater.length_eq]
  refine ⟨_, blames_element (fun element mem => exists_document (hbefore element mem))
    (fun inner hinner => exists_document (hrest inner hinner)) h.blames,
    laid ▸ yields_tuple made hothers, Sequence.get?_zero_laid, fun written => ?_, fun written => ?_⟩
  · exact Sequence.lists_laid_iff.mpr
      (.inl ⟨document, List.mem_append_right _ List.mem_cons_self, h.lists written⟩)
  · -- A single element is not in a list, so its place leads to nothing.
    rw [direct_element_iff helements hrest, ← h.shows written, several, hearlier.length_eq]
    exact Sequence.showsAt_laid_item h.noPlace

theorem located_rest {elements : List (Element Schema)}
    (h : Located text d false inner inner' steps document)
    (helements : ∀ element ∈ elements, element.node.Settled text) :
    ∃ document, Located text d inField (.node identity (.tuple elements (some inner)) .none)
      (.node identity (.tuple elements (some inner')) .none)
      ((if elements.isEmpty then .items else .additionalItems) :: steps) document := by
  obtain ⟨documents, hdocuments, quiet⟩ := exists_documents fun element mem =>
    (helements element mem).exists_yields false
  have place : (Number.ofDouble d).chars = text →
      (Sequence.document elements documents (some document)).get?
        (if elements.isEmpty then "items" else "additionalItems") = some (.object document) :=
    fun written => Sequence.get?_rest_of_unlike fun other mem =>
      Json.key_ne_of_lists (h.lists written) (quiet other mem).notLists
  have tokens : Location.tokens
      ((if elements.isEmpty then .items else .additionalItems) :: steps) =
        (if elements.isEmpty then "items" else "additionalItems") :: Location.tokens steps := by
    split <;> rfl
  refine ⟨Sequence.document elements documents (some document), blames_rest h.blames,
    yields_tuple hdocuments (.some h.yields), Sequence.get?_zero_document,
    fun written => ?_, fun written => ?_⟩
  · exact .member (Members.mem_of_get? (place written)) (h.lists written)
  · rw [direct_rest_iff helements, ← h.shows written, tokens]
    exact Json.showsAt_member (place written)

/-! ## Unions -/

theorem Yields.documentKey_eq {schema : Schema} {document : Members}
    (h : schema.Yields false document) : schema.documentKey = some (Json.object document).key := by
  rw [documentKey, Projection.document, h]
  rfl

/-- No document of members is left out exactly if no two of them have one key. -/
theorem nodup_documentKey_iff {schemas : List Schema} {documents : List Members}
    (made : List.Forall₂ (fun schema document => schema.Yields false document) schemas documents) :
    (schemas.map documentKey).Nodup ↔
      (Alternatives.distinct [] documents).length = documents.length := by
  have keys : schemas.map documentKey =
      documents.map fun document => some (Json.object document).key :=
    map_eq_of_forall₂ (fun _ _ h => Yields.documentKey_eq h) made.flip
  rw [keys, Alternatives.length_distinct_eq_iff, List.Nodup, List.pairwise_map]
  simp only [ne_eq, Option.some.injEq]

section

variable {members members' before after : List Schema}
  (same : members.filter (Projection.counts inField members) = before ++ inner :: after)
  (same' : members'.filter (Projection.counts inField members') = before ++ inner' :: after)
  (others : ∀ other ∈ before ++ after, other.Settled text)
  (h : Located text d false inner inner' steps document)

include same' others h

/-- The members of a union that is no enumeration have documents, which are joined. With a number
written like no other there are different ones, and they are listed. -/
theorem exists_joined (several : before ++ after ≠ [])
    (notEnum : ∀ location, Alternatives.literalEnum location
      ((before ++ inner' :: after).map Schema.literal?) = .ok none) :
    ∃ earlier later, List.Forall₂ (fun member document => member.Yields false document)
        before earlier ∧ (∀ other ∈ later, other.Quiet text) ∧
      (Schema.node identity (.union members') .none).Yields inField
        (Alternatives.join (earlier ++ document :: later)) ∧
      (Alternatives.join (earlier ++ document :: later)).get? "0" = none ∧
      ((Number.ofDouble d).chars = text → ∃ kept, kept.Sublist later ∧
        Alternatives.join (earlier ++ document :: later) =
          Alternatives.listed (Alternatives.distinct [] earlier ++ document :: kept)) := by
  obtain ⟨hbefore, hafter⟩ := List.forall_mem_append.mp others
  obtain ⟨earlier, hearlier, quietEarlier⟩ := exists_documents fun member mem =>
    (hbefore member mem).exists_yields false
  obtain ⟨later, hlater, quietLater⟩ := exists_documents fun member mem =>
    (hafter member mem).exists_yields false
  have quiet := List.forall_mem_append.mpr ⟨quietEarlier, quietLater⟩
  have made : List.Forall₂ (fun member document => member.Yields false document)
      (members'.filter (Projection.counts inField members')) (earlier ++ document :: later) := by
    rw [same']
    exact List.rel_append hearlier (.cons h.yields hlater)
  have noPlace : ∀ other ∈ earlier ++ document :: later, other.get? "0" = none := by
    intro other mem
    rcases List.mem_cons.mp (List.perm_middle.mem_iff.mp mem) with rfl | mem
    · exact h.noPlace
    · exact (quiet other mem).noPlace
  have more : earlier ++ later ≠ [] := by
    rw [← List.length_pos_iff, List.length_append, ← hearlier.length_eq, ← hlater.length_eq,
      ← List.length_append, List.length_pos_iff]
    exact several
  refine ⟨earlier, later, hearlier, quietLater, yields_union (fun _ => by rw [same', notEnum]) made,
    Alternatives.get?_zero_join (by simp) noPlace, fun written => ?_⟩
  exact Alternatives.join_append_cons (fun other mem =>
    Json.key_ne_of_lists (h.lists written) (quiet other mem).notLists) more

include same

theorem located_only (alone : before ++ after = []) :
    Located text d inField (.node identity (.union members) .none)
      (.node identity (.union members') .none) steps document := by
  refine ⟨blames_only same alone h.blames, ?_, h.noPlace, h.lists, fun written => ?_⟩
  · obtain ⟨rfl, rfl⟩ := List.append_eq_nil_iff.mp alone
    have made : List.Forall₂ (fun member document => member.Yields false document)
        (members'.filter (Projection.counts inField members')) [document] := by
      rw [same']
      exact .cons h.yields .nil
    exact yields_union (fun _ => by rw [same']; rfl) made
  · rw [direct_only_iff same others alone]
    exact h.shows written

theorem located_alternative (several : before ++ after ≠ [])
    (stops : inner.shape.number? = none ∨ ∃ other ∈ before, other.shape.number? = none)
    (notEnum : ∀ location, Alternatives.literalEnum location
      ((before ++ inner :: after).map Schema.literal?) = .ok none)
    (notEnum' : ∀ location, Alternatives.literalEnum location
      ((before ++ inner' :: after).map Schema.literal?) = .ok none) :
    ∃ document, Located text d inField (.node identity (.union members) .none)
      (.node identity (.union members') .none) (.alternative before.length :: steps) document := by
  obtain ⟨earlier, later, hearlier, quiet, yields, noPlace, listed⟩ :=
    exists_joined same' others h several notEnum'
  obtain ⟨hbefore, -⟩ := List.forall_mem_append.mp others
  refine ⟨_, blames_alternative same several notEnum
    (fun other mem => exists_document (hbefore other mem)) h.blames, yields, noPlace,
    fun written => ?_, fun written => ?_⟩
  · obtain ⟨kept, -, hjoin⟩ := listed written
    rw [hjoin, Alternatives.lists_listed_iff]
    exact ⟨document, List.mem_append_right _ List.mem_cons_self, h.lists written⟩
  · -- The document keeps its place only if none of the earlier ones is left out.
    obtain ⟨kept, sublist, hjoin⟩ := listed written
    have le := (Alternatives.distinct_sublist [] earlier).length_le
    rw [hjoin, direct_alternative_iff same others several stops, ← h.shows written,
      nodup_documentKey_iff hearlier, hearlier.length_eq]
    refine Alternatives.showsAt_listed le fun other mem => ?_
    rw [written]
    exact (quiet other (sublist.subset mem)).notLists

/-- A number that the search for an enumeration gets to is blamed on the union, and stands in the
enumeration of all members if they are numbers. -/
theorem located_numbers {x : Binary64} (hx : x.finite? = none) (several : before ++ after ≠ [])
    (number : inner.shape = .literal (.number x))
    (number' : inner'.shape = .literal (.number (.finite d)))
    (reached : ∀ other ∈ before, ∃ y, other.shape.number? = some y) :
    ∃ document, Located text d inField (.node identity (.union members) .none)
      (.node identity (.union members') .none) [] document := by
  have finite : ∀ other ∈ before ++ after, (∃ y, other.shape.number? = some y) →
      ∃ e, other.literal? = some (.number (.finite e)) := by
    rintro ⟨identity, shape, notes⟩ mem ⟨y, hy⟩
    obtain ⟨e, rfl, -⟩ := (others _ mem).number hy
    exact ⟨e, literal?_of_number? hy⟩
  have literal' : inner'.literal? = some (.number (.finite d)) := by rw [literal?, number']
  have blames : (Schema.node identity (.union members) .none).Blames inField [] :=
    blames_numbers same hx several (by rw [literal?, number])
      fun other mem => finite other (List.mem_append_left _ mem) (reached other mem)
  have direct : (Schema.node identity (.union members) .none).Direct inField ↔
      ∀ other ∈ after, ∃ y, other.shape.number? = some y :=
    direct_numbers_iff same others several ⟨x, number, hx⟩ reached
  by_cases all : ∀ other ∈ after, ∃ y, other.shape.number? = some y
  · have numbers : ∀ other ∈ before ++ after, ∃ e, other.literal? = some (.number (.finite e)) :=
      fun other mem => finite other mem (List.forall_mem_append.mpr ⟨reached, all⟩ other mem)
    obtain ⟨found, hfound, mem⟩ := literalEnum_of_numbers literal' numbers several
    have shown := Alternatives.showsAt_enumeration mem
    exact ⟨_, blames, yields_enumeration fun _ => by rw [same', hfound],
      Alternatives.get?_zero_enumeration _ _, fun written => written ▸ shown.lists,
      fun _ => iff_of_true shown (direct.mpr all)⟩
  · -- The search would have ended at a later member, had it not failed at the number.
    obtain ⟨hole, mem, stops⟩ : ∃ hole ∈ after, hole.shape.number? = none := by
      simpa [Option.eq_none_iff_forall_ne_some] using all
    have notEnum := literalEnum_of_later others literal' mem stops
    obtain ⟨earlier, later, -, -, yields, noPlace, listed⟩ :=
      exists_joined same' others h several notEnum
    refine ⟨_, blames, yields, noPlace, fun written => ?_, fun written => ?_⟩
    · obtain ⟨kept, -, hjoin⟩ := listed written
      rw [hjoin, Alternatives.lists_listed_iff]
      exact ⟨document, List.mem_append_right _ List.mem_cons_self, h.lists written⟩
    · obtain ⟨kept, -, hjoin⟩ := listed written
      rw [hjoin]
      exact iff_of_false Alternatives.not_showsAt_listed fun shown => all (direct.mp shown)

end

end

end

section

variable {text : List Char} {d : Double} {inner : Schema} {before after : List Schema}

theorem located_member {x : Binary64} (hx : x.finite? = none) {inField : Bool}
    {identity : Identity} {inner' : Schema} {steps : Location} {document : Members}
    (settled : ∀ other ∈ before ++ after, other.Settled text)
    (differ : Differ text x (.finite d) inner inner')
    (h : Located text d false inner inner' steps document) :
    ∃ steps document, Located text d inField
      (.node identity (.union (before ++ inner :: after)) .none)
      (.node identity (.union (before ++ inner' :: after)) .none) steps document := by
  obtain ⟨earlier, later, among, counted⟩ := Projection.exists_filter_counts inField before after
  have same := counted inner differ.isVoid_eq_false.1
  have same' := counted inner' differ.isVoid_eq_false.2
  have others : ∀ other ∈ earlier ++ later, other.Settled text :=
    fun other mem => settled other (among other mem)
  have hearlier : ∀ other ∈ earlier, other.Settled text :=
    fun other mem => others other (List.mem_append_left _ mem)
  by_cases alone : earlier ++ later = []
  · exact ⟨_, _, located_only same same' others h alone⟩
  rcases differ.literal_cases with ⟨number, number'⟩ | ⟨noLiteral, noLiteral'⟩
  · by_cases reached : ∀ other ∈ earlier, ∃ y, other.shape.number? = some y
    · exact ⟨_, located_numbers same same' others h hx alone number number' reached⟩
    · have stops : ∃ other ∈ earlier, other.shape.number? = none := by
        simpa [Option.eq_none_iff_forall_ne_some] using reached
      exact ⟨_, located_alternative same same' others h alone (.inr stops)
        (literalEnum_of_stops hearlier fun _ found => ⟨scalarType_of_number number found, stops⟩)
        (literalEnum_of_stops hearlier fun _ found => ⟨scalarType_of_number number' found, stops⟩)⟩
  · have noNumber : inner.shape.number? = none := by
      refine Option.eq_none_iff_forall_ne_some.mpr fun y hy => ?_
      cases noLiteral.symm.trans (literal?_of_number? hy)
    exact ⟨_, located_alternative same same' others h alone (.inl noNumber)
      (literalEnum_of_stops hearlier fun _ found => by cases noLiteral.symm.trans found)
      (literalEnum_of_stops hearlier fun _ found => by cases noLiteral'.symm.trans found)⟩

end

/-- Schemas that differ in one number, which is not finite in the first of them. -/
theorem Differ.located {text : List Char} {x : Binary64} {d : Double} {schema settled : Schema}
    (h : Differ text x (.finite d) schema settled) (hx : x.finite? = none) (inField : Bool) :
    ∃ steps document, Located text d inField schema settled steps document := by
  induction h generalizing inField with
  | number => exact ⟨_, _, located_number hx⟩
  | field nodup hfields hindex _ ih =>
    obtain ⟨steps, document, h⟩ := ih true
    exact ⟨_, located_field h nodup hfields hindex⟩
  | index nodup hfields _ ih =>
    obtain ⟨steps, document, h⟩ := ih false
    exact ⟨_, located_index h nodup hfields⟩
  | element helements hrest _ ih =>
    obtain ⟨steps, document, h⟩ := ih false
    exact ⟨_, located_element h helements hrest⟩
  | rest helements _ ih =>
    obtain ⟨steps, document, h⟩ := ih false
    exact ⟨_, located_rest h helements⟩
  | member settled differ ih =>
    obtain ⟨steps, document, h⟩ := ih false
    exact located_member hx settled differ h

theorem Bare.of_reachable {bindings : Bindings} {schema other : Schema} (bare : schema.Bare)
    (reached : Reachable bindings schema other) : other.Bare := by
  induction reached with
  | refl => exact bare
  | tail _ step ih =>
    cases ih with
    | node shapeBare parts =>
      cases step with
      | part part => exact parts _ part
      | target hshape _ =>
        obtain rfl : _ = Shape.recursive _ := hshape
        exact shapeBare.elim

theorem Yields.sound {schema : Schema} {inField : Bool} {document : Members} (bare : schema.Bare)
    (h : schema.Yields inField document) : document.Sound := by
  have admissible : ∀ other, Reachable [] schema other →
      other.shape.Admissible ∧ ∀ value ∈ other.notes.examples, value.Unambiguous := by
    intro other reached
    cases bare.of_reachable reached with
    | @node identity shape shapeBare _ =>
      refine ⟨⟨?_, ?_, ?_⟩, nofun⟩
      · rintro fields index rfl
        exact shapeBare
      · rintro members rfl
        exact shapeBare
      · rintro base constraints rfl
        exact shapeBare.elim
  refine Projection.sound_of_node admissible ?_ (h (fun _ _ => .ok []) .start)
  intro other reached reference same
  cases bare.of_reachable reached with
  | node shapeBare _ =>
    obtain rfl : _ = Shape.recursive _ := same
    exact shapeBare.elim

end Schema

/-- The heading of a document moves none of its schemas. -/
theorem ProjectionOptions.showsAt_headed (options : ProjectionOptions) {document : Members}
    (nodup : document.names.Nodup) (location : Location) (d : Double) :
    (Json.object (options.headed document)).ShowsAt (Location.tokens location) d ↔
      (Json.object document).ShowsAt (Location.tokens location) d := by
  refine Json.showsAt_congr (options.get?_headed nodup (by decide)) fun token mem =>
    options.get?_headed nodup ?_
  cases location with
  | nil => cases mem
  | cons step rest => cases step <;> cases mem <;> decide

namespace Graph

/-- A bare schema with one number that is not finite is projected to an error at a location. For
every finite number that is written like no other in the schema, the location leads to it in the
document of the schema with this number instead, exactly if the schema is direct. -/
theorem project_location_shows_iff_direct (options : ProjectionOptions) (bindings : Bindings)
    {schema : Schema} (bare : schema.Bare) (one : schema.nonFinite = 1) :
    ∃ location, Graph.project options ⟨bindings, schema⟩ = .error (.nonFiniteLiteral location) ∧
      ∀ d, (∀ e, .finite e ∈ schema.numbers →
          (Number.ofDouble e).chars ≠ (Number.ofDouble d).chars) →
        ∃ document, Graph.project options ⟨bindings, schema.settle d⟩ = .ok document ∧
          ((∃ tokens, Location.readTokens? location.text = some tokens ∧
            (Json.object document).ShowsAt tokens d) ↔ schema.Direct false) := by
  -- No number is written as nothing, so there is a location before there is a finite number.
  obtain ⟨x, hx, differ⟩ := Schema.exists_differ (d := Double.zero false) bare
    (fun e _ => Number.chars_ne_nil (.ofDouble e)) one
  obtain ⟨location, _, located⟩ := differ.located hx false
  refine ⟨location, ?_, fun d fresh => ?_⟩
  · rw [project_eq_error_iff]
    exact located.blames _ _
  · obtain ⟨x', hx', differ'⟩ := Schema.exists_differ (d := d) bare fresh one
    obtain ⟨location', document, located'⟩ := differ'.located hx' false
    obtain rfl : location = location' := by
      have same := (located.blames (fun _ _ => .ok []) .start).symm.trans (located'.blames _ _)
      cases same
      rfl
    refine ⟨options.headed document, ?_, ?_⟩
    · rw [project_eq, Projection.document, located'.yields]
      rfl
    · have sound := Schema.Yields.sound (Schema.bare_mapNumbers bare) located'.yields
      rw [← located'.shows rfl, Location.readTokens?_text]
      simp only [Option.some.injEq, exists_eq_left', options.showsAt_headed sound.unambiguous.nodup]

/-- Pairs of a number and an infinite one, under a name that pointers have to escape. -/
def span : Schema :=
  .make .root (.struct [⟨"from/to", .make (.step 0) (.tuple
    [⟨.make (.step 1) (.primitive .number), false⟩,
      ⟨.make (.step 2) (.literal (.number (.infinite false))), false⟩] none), false⟩] none)

theorem span_location_shows :
    ∃ location, Graph.project .standard ⟨[], span⟩ = .error (.nonFiniteLiteral location) ∧
      ∀ d, ∃ document, Graph.project .standard ⟨[], span.settle d⟩ = .ok document ∧
        ∃ tokens, Location.readTokens? location.text = some tokens ∧
          (Json.object document).ShowsAt tokens d := by
  have bare : span.Bare := by
    have leaf : ∀ {identity : Identity} {shape : Shape Schema}, shape.Bare → shape.parts = [] →
        (Schema.make identity shape).Bare := by
      intro identity shape shapeBare none
      refine .node shapeBare fun inner part => ?_
      rw [← Shape.mem_parts_iff, none] at part
      cases part
    refine .node (List.nodup_singleton _) fun inner part => ?_
    obtain rfl := List.mem_singleton.mp (Shape.mem_parts_iff.mpr part)
    refine .node trivial fun inner part => ?_
    rcases List.mem_pair.mp (Shape.mem_parts_iff.mpr part) with rfl | rfl
    · exact leaf trivial rfl
    · exact leaf trivial rfl
  have numbers : span.numbers = [.infinite false] := by
    simp [span, Schema.make, Schema.numbers_node, Shape.parts, Shape.number?]
  have direct : span.Direct false :=
    .field (List.mem_singleton_self _)
      (.element (List.mem_cons_of_mem _ (List.mem_singleton_self _)) (by decide) (.number rfl))
  obtain ⟨location, failed, shows⟩ :=
    project_location_shows_iff_direct .standard [] bare (by rw [Schema.nonFinite, numbers]; rfl)
  refine ⟨location, failed, fun d => ?_⟩
  obtain ⟨document, made, iff⟩ := shows d (by simp [numbers])
  exact ⟨document, made, iff.mpr direct⟩

/-- A tuple of one number that is not finite. -/
def lone : Schema :=
  .make .root (.tuple [⟨.make (.step 0) (.literal (.number .undefined)), false⟩] none)

/-- The single element of a tuple is looked for in a list, but stands there without one. -/
theorem lone_location_misses :
    Graph.project .standard ⟨[], lone⟩ = .error (.nonFiniteLiteral [.item 0]) ∧
      ∃ document, Graph.project .standard ⟨[], lone.settle (.zero false)⟩ = .ok document ∧
        Location.readTokens? (Location.text [.item 0]) = some ["items", "0"] ∧
        (Json.object document).ShowsAt ["items"] (.zero false) ∧
        ¬ (Json.object document).ShowsAt ["items", "0"] (.zero false) := by
  refine ⟨rfl, _, rfl, Location.readTokens?_text _, ?_, ?_⟩
  · exact (Json.showsAt_member rfl).mpr
      (Alternatives.showsAt_enumeration (List.mem_singleton_self _))
  · exact fun shown => Json.not_showsAt_member rfl ((Json.showsAt_member rfl).mp shown)

end Graph

end SchemaDoc
