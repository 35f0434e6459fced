import SchemaDoc.Proofs.Json.FromText
import SchemaDoc.Proofs.Projection.Composition
import SchemaDoc.Proofs.Projection.NamedOnce

/-!
# Lists are told by the shape of a tuple

A tuple of no elements with a rest is a list without bounds, and a required element before a rest
that says the same is a list that is not empty. For that the item is projected twice, in different
places, which gives one document. All other tuples have a bound on the number of their items and
say whether there may be more, so the three forms can be told apart.
-/
namespace SchemaDoc

namespace Sequence

/-- A single element that must be there says the same as the rest. -/
def Repeats (elements : List (Element Schema)) (documents : List Members)
    (rest : Option Members) : Prop :=
  ∃ head own further, elements = [head] ∧ head.optional = false ∧ documents = [own] ∧
    rest = some further ∧ (Json.object own).Alike (.object further)

/-- What bounds a document of a tuple has, by the elements and the rest. -/
structure BoundsTold (elements : List (Element Schema)) (documents : List Members)
    (rest : Option Members) (document : Members) : Prop where
  unbounded : document.get? "minItems" = none ↔ elements = [] ∧ rest.isSome = true
  nonEmpty : (document.get? "minItems").isSome = true ∧ document.get? "maxItems" = none ∧
    document.get? "additionalItems" = none ↔ Repeats elements documents rest
  positional : ¬ (elements = [] ∧ rest.isSome = true) → ¬ Repeats elements documents rest →
    document.get? "minItems" =
      some (.ofNat (elements.filter fun element => !element.optional).length) ∧
    document.get? "maxItems" = (if rest.isNone then some (.ofNat elements.length) else none) ∧
    document.get? "additionalItems" = rest.map .object

variable {elements : List (Element Schema)} {documents : List Members} {rest : Option Members}

theorem isNonEmptyList_iff (valid : ∀ document ∈ documents, (Json.object document).Unambiguous)
    (hrest : ∀ further, rest = some further → (Json.object further).Unambiguous) :
    isNonEmptyList elements documents rest = true ↔ Repeats elements documents rest := by
  constructor
  · intro list
    unfold isNonEmptyList at list
    split at list
    · next head own further =>
      obtain ⟨required, same⟩ := Bool.and_eq_true_iff.mp list
      have alike := Json.alike_of_key_eq (beq_iff_eq.mp same)
      exact ⟨head, own, further, rfl, by simpa using required, rfl, rfl, alike⟩
    · cases list
  · rintro ⟨head, own, further, rfl, required, rfl, rfl, alike⟩
    have same := Json.key_eq_of_alike alike (valid own (List.mem_singleton_self own))
      (hrest further rfl)
    simp [isNonEmptyList, required, same]

/-- The bounds of a document tell the form of the tuple. -/
theorem boundsTold_document (length : documents.length = elements.length)
    (valid : ∀ document ∈ documents, (Json.object document).Unambiguous)
    (hrest : ∀ further, rest = some further → (Json.object further).Unambiguous) :
    BoundsTold elements documents rest (document elements documents rest) := by
  have repeats : isNonEmptyList elements documents rest = true ↔ Repeats elements documents rest :=
    isNonEmptyList_iff valid hrest
  rcases document_cases elements documents rest with ⟨others, rfl, rfl, same⟩ | ⟨list, same⟩ |
    ⟨others, nonempty, rfl, notList, same⟩ | ⟨rfl, same⟩
  · have none : ¬ Repeats [] documents (some others) := by
      rintro ⟨_, _, _, single, -⟩
      cases single
    rw [same]
    constructor
    · simp [minItems_laid]
    · simp [minItems_laid, none]
    · simp
  · have single := repeats.mp list
    rw [same]
    constructor
    · obtain ⟨head, -, -, rfl, -⟩ := single
      simp [minItems_laid]
    · simp [minItems_laid, maxItems_laid, additionalItems_laid, single]
    · exact fun _ other => absurd single other
  · have none : ¬ Repeats elements documents (some others) := by
      rw [← repeats, notList]
      exact Bool.false_ne_true
    rw [same]
    constructor
    · simp [minItems_laid, nonempty]
    · simp [additionalItems_laid, none]
    · simp [minItems_laid, maxItems_laid, additionalItems_laid, requiredCount]
  · have none : ¬ Repeats elements documents none := by
      rintro ⟨_, _, _, -, -, -, absent, -⟩
      cases absent
    rw [same]
    constructor
    · simp [minItems_laid]
    · simp [maxItems_laid, none]
    · simp [minItems_laid, maxItems_laid, additionalItems_laid, requiredCount, length]

/-- Annotations leave the bounds alone. -/
theorem BoundsTold.overlay {document : Members}
    (told : BoundsTold elements documents rest document) (notes : Annotations) :
    BoundsTold elements documents rest (notes.overlay document) := by
  have least := notes.get?_overlay document
    (by decide : "minItems" ∉ ["title", "description", "examples"])
  have most := notes.get?_overlay document
    (by decide : "maxItems" ∉ ["title", "description", "examples"])
  have further := notes.get?_overlay document
    (by decide : "additionalItems" ∉ ["title", "description", "examples"])
  constructor
  · rw [least]
    exact told.unbounded
  · rw [least, most, further]
    exact told.nonEmpty
  · rw [least, most, further]
    exact told.positional

end Sequence

namespace Projection

/-- Wherever an item has a document, the list of such items and the list that is not empty have it
as their items; and of every tuple that has a document, the bounds in it tell the form. -/
theorem lists_told_by_shape (bindings : Bindings) (cap remaining : Nat) (inField : Bool)
    (trail : Trail) (identity : Identity) :
    (∀ item document, node (follow bindings cap remaining) false
        ((trail.visit identity).enter .items) item = .ok document →
      node (follow bindings cap remaining) inField trail (.array identity item) =
        .ok [("type", .string "array"), ("items", .object document)] ∧
      node (follow bindings cap remaining) inField trail (.nonEmptyArray identity item) =
        .ok [("type", .string "array"), ("items", .object document), ("minItems", .ofNat 1)]) ∧
    ∀ elements rest notes document,
      (Schema.node identity (.tuple elements rest) notes).ValuesUnambiguous bindings →
      node (follow bindings cap remaining) inField trail
        (.node identity (.tuple elements rest) notes) = .ok document →
      ∃ documents others, List.Forall₂ (fun element document =>
          node (follow bindings cap remaining) false (trail.visit identity) element.node =
            .ok document) elements documents ∧
        Option.Rel (fun inner document =>
          node (follow bindings cap remaining) false (trail.visit identity) inner =
            .ok document) rest others ∧
        Sequence.BoundsTold elements documents others document := by
  constructor
  · intro item document h
    have made : node (follow bindings cap remaining) false (trail.visit identity) item =
        .ok document := (node_enter_eq_ok_iff .items).mp h
    constructor
    · exact (node_tuple_eq_ok_iff identity .none).mpr ⟨[], some document, .nil, .some made, rfl⟩
    · refine (node_tuple_eq_ok_iff identity .none).mpr
        ⟨[document], some document, .cons made .nil, .some made, ?_⟩
      simp [Sequence.document, Sequence.isNonEmptyList, Sequence.itemsOf]
  · intro elements rest notes document valid h
    obtain ⟨documents, others, hdocuments, hothers, rfl⟩ :=
      (node_tuple_eq_ok_iff identity notes).mp h
    have inner : ∀ {inner : Schema}, Shape.Part (.tuple elements rest) inner →
        inner.ValuesUnambiguous bindings :=
      fun part further reached => valid further (.head (.part part) reached)
    refine ⟨documents, others, hdocuments, hothers, ?_⟩
    apply Sequence.BoundsTold.overlay
    apply Sequence.boundsTold_document hdocuments.length_eq.symm
    · intro made mem
      obtain ⟨element, helement, hmade⟩ := exists_of_mem_right hdocuments mem
      exact unambiguous_of_node (inner (.element helement)) hmade
    · rintro further rfl
      cases hothers with
      | some hrest => exact unambiguous_of_node (inner .rest) hrest

/-! ## Remarks that lead to themselves -/

def remarkText : Schema := .make (.step 1) (.primitive .string)

def nextRemark : Schema := .make (.step 2) (.recursive (.slot "remark"))

def remark : Schema :=
  .make (.step 3) (.struct [⟨"text", remarkText, true⟩, ⟨"next", nextRemark, true⟩] none)

def nextTurned : Schema := .make (.step 4) (.recursive (.slot "turned"))

/-- A remark with its fields in another order. -/
def turned : Schema :=
  .make (.step 5) (.struct [⟨"next", nextTurned, true⟩, ⟨"text", remarkText, true⟩] none)

def remarks : Bindings := [("remark", remark), ("turned", turned)]

/-- A remark before any number of remarks in the other order. -/
def remarkList : Schema := .make (.step 6) (.tuple [⟨remark, false⟩] (some turned))

theorem remarkList_valuesUnambiguous : remarkList.ValuesUnambiguous remarks := by
  apply Schema.ValuesUnambiguous.of_bare
  intro inner reached
  have among : inner ∈ [remarkList, remark, nextRemark, turned, nextTurned, remarkText] := by
    apply mem_of_reachable _ _ List.mem_cons_self reached
    · simp [remarkList, remark, nextRemark, turned, nextTurned, remarkText, Schema.make,
        Schema.shape, Shape.parts]
    · simp [remarkList, remark, nextRemark, turned, nextTurned, remarkText, remarks, Schema.make,
        Schema.shape, Reference.resolve, List.lookup_cons]
  have bare : ∀ inner ∈ [remarkList, remark, nextRemark, turned, nextTurned, remarkText],
      (∀ base constraints, inner.shape ≠ .refinement base constraints) ∧
        inner.notes.examples = [] := by
    simp [remarkList, remark, nextRemark, turned, nextTurned, remarkText, Schema.make,
      Schema.shape, Schema.notes, Annotations.none]
  exact bare inner among

theorem lists_told_by_shape_remarks :
    ∃ document listed,
      node (follow remarks 10 10) false ((Trail.start.visit (.step 6)).enter .items) remark =
        .ok document ∧
      node (follow remarks 10 10) true .start (.nonEmptyArray (.step 6) remark) =
        .ok [("type", .string "array"), ("items", .object document), ("minItems", .ofNat 1)] ∧
      remarkList.ValuesUnambiguous remarks ∧
      node (follow remarks 10 10) true .start remarkList = .ok listed ∧
      ∃ documents others,
        Sequence.BoundsTold [⟨remark, false⟩] documents others listed := by
  have both := lists_told_by_shape remarks 10 10 true .start (.step 6)
  refine ⟨_, _, rfl, (both.1 _ _ rfl).2, remarkList_valuesUnambiguous, rfl, ?_⟩
  obtain ⟨documents, others, -, -, told⟩ := both.2 _ _ _ _ remarkList_valuesUnambiguous rfl
  exact ⟨documents, others, told⟩

end Projection

end SchemaDoc
