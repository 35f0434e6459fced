import SchemaDoc.Proofs.Projection.Lists
import SchemaDoc.Proofs.Projection.UnionOrder

/-!
# Keys decide what is alike

As long as no object names a member twice, two values have one key exactly if they are alike. Keys
are what unions and lists that are not empty compare: so of documents that are alike a union keeps
one, it keeps one of each kind, and a tuple is laid out as a list exactly if its element says the
same as the rest.
-/
namespace SchemaDoc

/-- The key of a value tells everything but the order of members. -/
theorem Json.key_eq_iff_alike {value other : Json} (hvalue : value.Unambiguous)
    (hother : other.Unambiguous) : value.key = other.key ↔ value.Alike other :=
  ⟨alike_of_key_eq, fun alike => key_eq_of_alike alike hvalue hother⟩

namespace Alternatives

/-- One document of each kind is kept. -/
structure Keeps (documents kept : List Members) : Prop where
  sublist : kept.Sublist documents
  unlike : kept.Pairwise fun document later => ¬ (Json.object document).Alike (.object later)
  covers : ∀ document ∈ documents, ∃ one ∈ kept, (Json.object one).Alike (.object document)

theorem keeps_distinct {documents : List Members}
    (valid : ∀ document ∈ documents, (Json.object document).Unambiguous) :
    Keeps documents (distinct [] documents) where
  sublist := distinct_sublist [] documents
  unlike := by
    refine (pairwise_distinct [] documents).imp_of_mem fun hdocument hlater different alike => ?_
    have here := valid _ ((distinct_sublist [] documents).subset hdocument)
    have there := valid _ ((distinct_sublist [] documents).subset hlater)
    exact different (Json.key_eq_of_alike alike here there)
  covers := by
    intro document mem
    obtain ⟨kept, hkept, same⟩ := exists_key_of_mem mem List.not_mem_nil
    exact ⟨kept, hkept, Json.alike_of_key_eq same⟩

theorem get?_oneOf_overlay_listed (notes : Annotations) (documents : List Members) :
    (notes.overlay (listed documents)).get? "oneOf" =
      some (.array (documents.map Json.object)) := by
  rw [notes.get?_overlay _ (by decide), listed_eq]
  rfl

end Alternatives

namespace Projection

variable {bindings : Bindings} {cap remaining : Nat} {inField : Bool} {trail : Trail}
  {identity : Identity} {notes : Annotations} {document : Members}

/-- A union that is no enumeration shows one document of each kind. -/
theorem exists_keeps_of_node_union {members : List Schema}
    (valid : (Schema.node identity (.union members) notes).ValuesUnambiguous bindings)
    (notEnum : Alternatives.literalEnum []
      ((members.filter (counts inField members)).map Schema.literal?) = .ok none)
    (h : node (follow bindings cap remaining) inField trail
      (.node identity (.union members) notes) = .ok document) :
    ∃ documents kept, List.Forall₂ (fun member document =>
        node (follow bindings cap remaining) false (trail.visit identity) member = .ok document)
        (members.filter (counts inField members)) documents ∧
      Alternatives.Keeps documents kept ∧
      ((∃ only, kept = [only] ∧ document = notes.overlay only) ∨
        (kept.length ≠ 1 ∧ document.get? "oneOf" = some (.array (kept.map Json.object)))) := by
  obtain ⟨made, rfl, found | ⟨-, documents, hdocuments, rfl⟩⟩ :=
    (node_union_eq_ok_iff identity notes).mp h
  · rw [notEnum] at found
    cases found
  · have each : ∀ document ∈ documents, (Json.object document).Unambiguous := by
      intro document mem
      obtain ⟨member, hmember, hdocument⟩ := exists_of_mem_right hdocuments mem
      have part : Shape.Part (.union members) member := .member (List.mem_filter.mp hmember).1
      exact unambiguous_of_node (valid.of_part part) hdocument
    refine ⟨documents, _, hdocuments, Alternatives.keeps_distinct each, ?_⟩
    rcases Alternatives.join_eq documents with ⟨only, single, same⟩ | ⟨several, same⟩
    · exact .inl ⟨only, single, congrArg notes.overlay same⟩
    · refine .inr ⟨several, ?_⟩
      rw [same, Alternatives.get?_oneOf_overlay_listed]

/-- A tuple is taken for a list that is not empty exactly if its element says what the rest says. -/
theorem exists_isNonEmptyList_iff_of_node {elements : List (Element Schema)} {rest : Option Schema}
    (valid : (Schema.node identity (.tuple elements rest) notes).ValuesUnambiguous bindings)
    (h : node (follow bindings cap remaining) inField trail
      (.node identity (.tuple elements rest) notes) = .ok document) :
    ∃ documents others, List.Forall₂ (fun element document =>
        node (follow bindings cap remaining) false (trail.visit identity) element.node =
          .ok document) elements documents ∧
      Option.Rel (fun inner document =>
        node (follow bindings cap remaining) false (trail.visit identity) inner = .ok document)
        rest others ∧
      document = notes.overlay (Sequence.document elements documents others) ∧
      (Sequence.isNonEmptyList elements documents others = true ↔
        Sequence.Repeats elements documents others) := by
  obtain ⟨documents, others, hdocuments, hothers, rfl⟩ :=
    (node_tuple_eq_ok_iff identity notes).mp h
  refine ⟨documents, others, hdocuments, hothers, rfl, Sequence.isNonEmptyList_iff ?_ ?_⟩
  · intro made mem
    obtain ⟨element, helement, hmade⟩ := exists_of_mem_right hdocuments mem
    exact unambiguous_of_node (valid.of_part (.element helement)) hmade
  · rintro further rfl
    cases hothers with
    | some hrest => exact unambiguous_of_node (valid.of_part .rest) hrest

/-- Values have one key exactly if they are alike, so comparing keys neither merges different
documents of a union nor keeps two that are alike, and finds out exactly if the element of a tuple
says the same as the rest. -/
theorem keys_decide_alike :
    (∀ value other : Json, value.Unambiguous → other.Unambiguous →
      (value.key = other.key ↔ value.Alike other)) ∧
    ∀ (bindings : Bindings) (cap remaining : Nat) (inField : Bool) (trail : Trail)
      (identity : Identity) (notes : Annotations) (document : Members),
      (∀ members, (Schema.node identity (.union members) notes).ValuesUnambiguous bindings →
        Alternatives.literalEnum []
          ((members.filter (counts inField members)).map Schema.literal?) = .ok none →
        node (follow bindings cap remaining) inField trail
          (.node identity (.union members) notes) = .ok document →
        ∃ documents kept, List.Forall₂ (fun member document =>
            node (follow bindings cap remaining) false (trail.visit identity) member =
              .ok document) (members.filter (counts inField members)) documents ∧
          Alternatives.Keeps documents kept ∧
          ((∃ only, kept = [only] ∧ document = notes.overlay only) ∨
            (kept.length ≠ 1 ∧ document.get? "oneOf" = some (.array (kept.map Json.object))))) ∧
      ∀ elements rest,
        (Schema.node identity (.tuple elements rest) notes).ValuesUnambiguous bindings →
        node (follow bindings cap remaining) inField trail
          (.node identity (.tuple elements rest) notes) = .ok document →
        ∃ documents others, List.Forall₂ (fun element document =>
            node (follow bindings cap remaining) false (trail.visit identity) element.node =
              .ok document) elements documents ∧
          Option.Rel (fun inner document =>
            node (follow bindings cap remaining) false (trail.visit identity) inner =
              .ok document) rest others ∧
          document = notes.overlay (Sequence.document elements documents others) ∧
          (Sequence.isNonEmptyList elements documents others = true ↔
            Sequence.Repeats elements documents others) := by
  constructor
  · exact fun value other => Json.key_eq_iff_alike
  · intro bindings cap remaining inField trail identity notes document
    constructor
    · exact fun members valid notEnum h => exists_keeps_of_node_union valid notEnum h
    · exact fun elements rest valid h => exists_isNonEmptyList_iff_of_node valid h

/-! ## Remarks in two orders -/

/-- A remark, the same with its fields in another order, or the text alone. -/
def someRemark : Schema := .make (.step 7) (.union [remark, turned, remarkText])

theorem someRemark_valuesUnambiguous : someRemark.ValuesUnambiguous remarks := by
  have listed := remarkList_valuesUnambiguous
  have first : Shape.Part (.tuple [⟨remark, false⟩] (some turned)) remark :=
    .element (List.mem_singleton_self (⟨remark, false⟩ : Element Schema))
  have here : remark.ValuesUnambiguous remarks := listed.of_part first
  have there : turned.ValuesUnambiguous remarks := listed.of_part .rest
  have text : remarkText.ValuesUnambiguous remarks :=
    here.of_part (.field (List.mem_cons_self (a := (⟨"text", remarkText, true⟩ : Field Schema))))
  refine Schema.ValuesUnambiguous.of_parts ?_ ?_ fun inner part => ?_
  · exact nofun
  · exact nofun
  · cases part with
    | member mem =>
      have each : ∀ inner ∈ [remark, turned, remarkText], inner.ValuesUnambiguous remarks := by
        simp [here, there, text]
      exact each inner mem

def marks : Json := .array [.null, .string "b"]

theorem unambiguous_marks : marks.Unambiguous :=
  .array (List.forall_mem_cons.mpr ⟨.null, List.forall_mem_singleton.mpr (.string "b")⟩)

/-- One object in two orders, the keys of which have quotes and commas. -/
def quotedNames : Members := [("a", marks), ("b\",", .bool true)]

def turnedNames : Members := [("b\",", .bool true), ("a", marks)]

theorem unambiguous_quotedNames : (Json.object quotedNames).Unambiguous :=
  .object (by decide)
    (List.forall_mem_cons.mpr ⟨unambiguous_marks, List.forall_mem_singleton.mpr (.bool true)⟩)

theorem unambiguous_turnedNames : (Json.object turnedNames).Unambiguous :=
  .object (by decide)
    (List.forall_mem_cons.mpr ⟨.bool true, List.forall_mem_singleton.mpr unambiguous_marks⟩)

theorem alike_turnedNames : (Json.object quotedNames).Alike (.object turnedNames) :=
  .object rfl (List.forall₂_same.mpr fun value _ => .refl value) (.swap _ _ [])

theorem keys_decide_alike_remarks :
    (Json.object quotedNames).key = (Json.object turnedNames).key ∧
    (∃ document, node (follow remarks 10 10) false .start someRemark = .ok document ∧
      ∃ documents kept, Alternatives.Keeps documents kept ∧
        ((∃ only, kept = [only] ∧ document = Annotations.none.overlay only) ∨
          (kept.length ≠ 1 ∧ document.get? "oneOf" = some (.array (kept.map Json.object))))) ∧
    ∃ document, node (follow remarks 10 10) false .start remarkList = .ok document ∧
      ∃ documents others, document = Sequence.document [⟨remark, false⟩] documents others ∧
        (Sequence.isNonEmptyList [⟨remark, false⟩] documents others = true ↔
          Sequence.Repeats [⟨remark, false⟩] documents others) := by
  refine ⟨?_, ⟨_, rfl, ?_⟩, ⟨_, rfl, ?_⟩⟩
  · exact (keys_decide_alike.1 _ _ unambiguous_quotedNames unambiguous_turnedNames).mpr
      alike_turnedNames
  · obtain ⟨documents, kept, -, keeps, shown⟩ :=
      (keys_decide_alike.2 remarks 10 10 false .start _ .none _).1 _ someRemark_valuesUnambiguous
        rfl rfl
    exact ⟨documents, kept, keeps, shown⟩
  · obtain ⟨documents, others, -, -, same, list⟩ :=
      (keys_decide_alike.2 remarks 10 10 false .start _ .none _).2 _ _ remarkList_valuesUnambiguous
        rfl
    exact ⟨documents, others, same, list⟩

end Projection

end SchemaDoc
