import SchemaDoc.Projection.Basic
import SchemaDoc.Proofs.InStep

/-!
# What documents depend on

Of the parts of a shape, a document depends on the documents of the parts and on little else: the
names of fields, what is optional, which members of a union stand for nothing, and which are
literals. So parts of different types that agree in these make the same documents.
-/
namespace SchemaDoc

variable {σ τ : Type}

/-! ## Documents -/

/-- The members of a union that a field with this type can have: not those that stand for nothing,
unless there are no others. Elsewhere all members count. -/
def Alternatives.present {σ : Type} (isVoid : σ → Bool) (inField : Bool) (members : List σ) :
    List σ :=
  let others := members.filter fun member => !isVoid member
  if inField && !others.isEmpty then others else members

theorem Alternatives.mem_of_mem_present {isVoid : σ → Bool} {inField : Bool} {members : List σ}
    {member : σ} (h : member ∈ present isVoid inField members) : member ∈ members := by
  simp only [present] at h
  split at h
  · exact (List.mem_filter.mp h).1
  · exact h

theorem Projection.filter_counts (inField : Bool) (members : List Schema) :
    members.filter (counts inField members) =
      Alternatives.present Schema.isVoid inField members := by
  unfold Alternatives.present counts
  cases inField with
  | false => simp
  | true =>
    by_cases h : members.any fun member => !member.isVoid
    · have nonempty : (members.filter fun member => !member.isVoid) ≠ [] := by
        simpa using h
      simp [h, nonempty]
    · have empty : (members.filter fun member => !member.isVoid) = [] := by
        simpa using h
      simp [h, empty]

/-- The document of a struct depends on the names of its fields and on which are optional. -/
theorem Projection.ofStruct_congr {fields : List (Field σ)} {made : List (Field τ)}
    (h : List.Forall₂ (fun field field' => field'.name = field.name ∧
      field'.optional = field.optional) fields made) (properties : Members)
    (index : Option Members) :
    ofStruct made properties index = ofStruct fields properties index := by
  have hrequired : (made.filter fun field => !field.optional).map (fun field =>
      Json.string field.name) = (fields.filter fun field => !field.optional).map fun field =>
        Json.string field.name := by
    induction h with
    | nil => rfl
    | @cons field field' _ _ hfirst _ ih =>
      obtain ⟨hname, hoptional⟩ := hfirst
      cases hrequired : field.optional with
      | true => simp [hoptional, hrequired, ih]
      | false => simp [hoptional, hrequired, hname, ih]
  unfold ofStruct
  rw [hrequired]

/-- The document of a tuple depends on which of its elements are optional. -/
theorem Sequence.document_congr {elements : List (Element σ)}
    {made : List (Element τ)} (h : List.Forall₂ (fun element element' =>
      element'.optional = element.optional) elements made) (documents : List Members)
    (rest : Option Members) :
    document made documents rest = document elements documents rest := by
  have hcount : requiredCount made = requiredCount elements := by
    unfold requiredCount
    induction h with
    | nil => rfl
    | @cons element element' _ _ hfirst _ ih =>
      cases hrequired : element.optional <;> simp [hfirst, hrequired, ih]
  have hnonEmpty : isNonEmptyList made documents rest = isNonEmptyList elements documents rest := by
    cases h with
    | nil => rfl
    | cons hfirst hrest =>
      cases hrest with
      | nil =>
        unfold isNonEmptyList
        split <;> simp_all
      | cons => rfl
  cases h with
  | nil => cases rest <;> rfl
  | cons => simp only [document, hnonEmpty, hcount]

theorem Alternatives.present_rel {R : σ → τ → Prop} {isVoid : σ → Bool}
    {isVoid' : τ → Bool} (hvoid : ∀ x y, R x y → isVoid' y = isVoid x) {members : List σ}
    {made : List τ} (h : List.Forall₂ R members made) (inField : Bool) :
    List.Forall₂ R (present isVoid inField members) (present isVoid' inField made) := by
  have hothers : List.Forall₂ R (members.filter fun member => !isVoid member)
      (made.filter fun member => !isVoid' member) := by
    refine List.rel_filter ?_ h
    intro x y hxy
    simp [hvoid x y hxy]
  have hempty : (made.filter fun member => !isVoid' member).isEmpty =
      (members.filter fun member => !isVoid member).isEmpty := by
    rw [Bool.eq_iff_iff, List.isEmpty_iff_length_eq_zero, List.isEmpty_iff_length_eq_zero,
      hothers.length_eq]
  simp only [present, hempty]
  split
  · exact hothers
  · exact h

namespace Alternatives

/-- Literals that JSON can write are never to blame. -/
theorem literalValues_ok {members : List (Option Literal)}
    (h : ∀ literal, some literal ∈ members → ∃ value, literal.toJson? = some value)
    (scalar : Option String) (values : List Json) :
    ∃ found, ∀ location, literalValues location scalar values members = .ok found := by
  induction members generalizing scalar values with
  | nil => exact ⟨_, fun _ => rfl⟩
  | cons member rest ih =>
    cases member with
    | none => exact ⟨none, fun _ => rfl⟩
    | some literal =>
      obtain ⟨value, hvalue⟩ := h literal List.mem_cons_self
      simp only [literalValues, hvalue]
      split
      · exact ih (fun other mem => h other (List.mem_cons_of_mem _ mem)) _ _
      · exact ⟨none, fun _ => rfl⟩

theorem literalEnum_ok {members : List (Option Literal)}
    (h : ∀ literal, some literal ∈ members → ∃ value, literal.toJson? = some value) :
    ∃ found, ∀ location, literalEnum location members = .ok found := by
  unfold literalEnum
  split
  · exact ⟨none, fun _ => rfl⟩
  · obtain ⟨found, hfound⟩ := literalValues_ok h none []
    exact ⟨_, fun location => by rw [hfound location]; rfl⟩

end Alternatives

end SchemaDoc
