import SchemaDoc.Proofs.Double.Text
import SchemaDoc.Proofs.Json.FromText
import SchemaDoc.Proofs.Projection.Coherence

/-!
# Documents of one canonical form

The key of a value determines its canonical form. Objects of one canonical form have the same
names, with values of one canonical form, and hold schemas of one canonical form; repeated names
make no difference, since members of one name keep their order. So whatever stands in a document
that is left out of a union for its key also stands in the document that is kept.
-/
namespace SchemaDoc

namespace Json

/-- Values are written alike only if they are the same. -/
theorem eq_of_writtenAlike {value other : Json} (h : value.WrittenAlike other) : value = other := by
  induction value using induction_on_values generalizing other with
  | null => cases h; rfl
  | bool b => cases h; rfl
  | string text => cases h; rfl
  | number n =>
    cases h with
    | number same => rw [Number.chars_inj same]
  | array items ih =>
    cases h with
    | array alike =>
      have same := (forall₂_mem alike).imp fun item other h => ih item h.1 h.2
      rw [List.forall₂_eq_eq_eq] at same
      rw [same]
  | object members ih =>
    cases h with
    | object names values =>
      have same := (forall₂_mem (forall₂_of_named names values)).imp fun member other h =>
        Prod.ext h.2.1.symm (ih member h.1 h.2.2)
      rw [List.forall₂_eq_eq_eq] at same
      rw [same]

theorem canonical_eq_of_key_eq {value other : Json} (h : value.key = other.key) :
    value.canonical = other.canonical :=
  eq_of_writtenAlike (writtenAlike_of_compact_eq h)

end Json

/-! ## Names -/

namespace Members

/-- A member is only moved past members of other names. -/
theorem get?_insertOrdered (member : String × Json) (members : Members) (name : String) :
    (insertOrdered member members).get? name = get? (member :: members) name := by
  obtain ⟨first, value⟩ := member
  induction members with
  | nil => rfl
  | cons member rest ih =>
    obtain ⟨second, other⟩ := member
    unfold insertOrdered
    split
    · rfl
    · next greater =>
      have different : first ≠ second := fun same => greater (same ▸ String.le_refl _)
      simp only [get?, List.lookup_cons] at ih ⊢
      rw [ih]
      by_cases here : name = second
      · rw [beq_iff_eq.mpr here, beq_eq_false_iff_ne.mpr (here ▸ different.symm)]
      · rw [beq_eq_false_iff_ne.mpr here]

theorem get?_ordered (members : Members) (name : String) :
    (ordered members).get? name = members.get? name := by
  induction members with
  | nil => rfl
  | cons member rest ih =>
    obtain ⟨first, value⟩ := member
    change (insertOrdered (first, value) (ordered rest)).get? name = _
    rw [get?_insertOrdered]
    simp only [get?, List.lookup_cons] at ih ⊢
    rw [ih]

theorem get?_map (f : Json → Json) (members : Members) (name : String) :
    get? (members.map fun member => (member.1, f member.2)) name = (members.get? name).map f := by
  induction members with
  | nil => rfl
  | cons member rest ih =>
    obtain ⟨first, value⟩ := member
    simp only [get?, List.map_cons, List.lookup_cons] at ih ⊢
    cases name == first with
    | true => rfl
    | false => exact ih

end Members

namespace Json

variable {members others : Members}

/-- The canonical form of an object has the canonical forms of its values under the same names. -/
theorem get?_canonical (members : Members) (name : String) :
    (object members).canonical.get? name = (members.get? name).map canonical := by
  rw [canonical, canonicalMembers_eq_map]
  change (Members.ordered _).get? name = _
  rw [Members.get?_ordered, Members.get?_map]

theorem exists_get?_of_canonical (same : (object members).canonical = (object others).canonical)
    {name : String} {value : Json} (found : members.get? name = some value) :
    ∃ other, others.get? name = some other ∧ value.canonical = other.canonical := by
  have forms := congrArg (Json.get? · name) same
  simp only [get?_canonical, found, Option.map_some] at forms
  obtain ⟨other, hother, hform⟩ := Option.map_eq_some_iff.mp forms.symm
  exact ⟨other, hother, hform.symm⟩

theorem exists_mem_of_canonical (same : (object members).canonical = (object others).canonical)
    {name : String} {value : Json} (mem : (name, value) ∈ members) :
    ∃ other, (name, other) ∈ others ∧ value.canonical = other.canonical := by
  rw [canonical, canonical, canonicalMembers_eq_map, canonicalMembers_eq_map] at same
  have here : (name, value.canonical) ∈
      Members.ordered (members.map fun member => (member.1, member.2.canonical)) :=
    (Members.perm_ordered _).mem_iff.mpr (List.mem_map.mpr ⟨(name, value), mem, rfl⟩)
  rw [object.inj same] at here
  obtain ⟨⟨name', other⟩, hother, hform⟩ :=
    List.mem_map.mp ((Members.perm_ordered _).mem_iff.mp here)
  obtain ⟨rfl, hvalue⟩ := Prod.mk.inj hform
  exact ⟨other, hother, hvalue.symm⟩

/-! ## Kinds of values -/

theorem exists_members_of_canonical {value : Json}
    (same : value.canonical = (object members).canonical) : ∃ others, value = object others := by
  have type := congrArg typeName same
  rw [typeName_canonical, typeName_canonical] at type
  cases value with
  | object others => exact ⟨others, rfl⟩
  | _ => exact absurd type (by simp [typeName])

theorem exists_items_of_canonical {value : Json} {items : List Json}
    (same : value.canonical = (array items).canonical) :
    ∃ others, value = array others ∧ others.map canonical = items.map canonical := by
  have type := congrArg typeName same
  rw [typeName_canonical, typeName_canonical] at type
  cases value with
  | array others =>
    rw [canonical, canonical, canonicalItems_eq_map, canonicalItems_eq_map] at same
    exact ⟨others, rfl, array.inj same⟩
  | _ => exact absurd type (by simp [typeName])

theorem eq_string_of_canonical {value : Json} {text : String}
    (same : value.canonical = (string text).canonical) : value = string text := by
  cases value <;> simp only [canonical, reduceCtorEq] at same
  exact same

theorem eq_number_of_canonical {value : Json} {n : Number}
    (same : value.canonical = (number n).canonical) : value = number n := by
  cases value <;> simp only [canonical, reduceCtorEq] at same
  exact same

/-- The canonical form of an array of numbers has no other value. -/
theorem eq_numbers_of_canonical {value : Json} {numbers : List Number}
    (same : value.canonical = (array (numbers.map number)).canonical) :
    value = array (numbers.map number) := by
  obtain ⟨items, rfl, forms⟩ := exists_items_of_canonical same
  have each : List.Forall₂ (fun item n => item = number n) items numbers := by
    rw [List.map_map, ← List.forall₂_eq_eq_eq, List.forall₂_map_left_iff,
      List.forall₂_map_right_iff] at forms
    exact forms.imp fun _ _ => eq_number_of_canonical
  have mapped := map_eq_of_forall₂ (f := id) (g := number) (fun _ _ same => same.symm) each
  rw [mapped, List.map_id]

end Json

/-! ## Schemas -/

/-- Documents of one canonical form hold schemas of one canonical form. -/
theorem Members.Inner.exists_of_canonical {document other : Members} {inner : Json}
    (h : document.Inner inner)
    (same : (Json.object document).canonical = (Json.object other).canonical) :
    ∃ inner', other.Inner inner' ∧ inner.canonical = inner'.canonical := by
  cases h with
  | property found mem =>
    obtain ⟨value, hvalue, forms⟩ := Json.exists_get?_of_canonical same found
    obtain ⟨properties, rfl⟩ := Json.exists_members_of_canonical forms.symm
    obtain ⟨inner', mem', hform⟩ := Json.exists_mem_of_canonical forms mem
    exact ⟨inner', .property hvalue mem', hform⟩
  | additionalProperties found =>
    obtain ⟨value, hvalue, forms⟩ := Json.exists_get?_of_canonical same found
    obtain ⟨members, rfl⟩ := Json.exists_members_of_canonical forms.symm
    exact ⟨_, .additionalProperties hvalue, forms⟩
  | items found =>
    obtain ⟨value, hvalue, forms⟩ := Json.exists_get?_of_canonical same found
    obtain ⟨members, rfl⟩ := Json.exists_members_of_canonical forms.symm
    exact ⟨_, .items hvalue, forms⟩
  | item found mem =>
    obtain ⟨value, hvalue, forms⟩ := Json.exists_get?_of_canonical same found
    obtain ⟨entries, rfl, hentries⟩ := Json.exists_items_of_canonical forms.symm
    obtain ⟨inner', mem', hform⟩ := List.mem_map.mp (hentries ▸ List.mem_map_of_mem mem)
    exact ⟨inner', .item hvalue mem', hform.symm⟩
  | additionalItems found =>
    obtain ⟨value, hvalue, forms⟩ := Json.exists_get?_of_canonical same found
    exact ⟨_, .additionalItems hvalue, forms⟩
  | alternative found mem =>
    obtain ⟨value, hvalue, forms⟩ := Json.exists_get?_of_canonical same found
    obtain ⟨arms, rfl, harms⟩ := Json.exists_items_of_canonical forms.symm
    obtain ⟨inner', mem', hform⟩ := List.mem_map.mp (harms ▸ List.mem_map_of_mem mem)
    exact ⟨inner', .alternative hvalue mem', hform.symm⟩

/-- However deep they are. -/
theorem Json.Position.exists_of_canonical {root other position : Json} (h : root.Position position)
    (same : root.canonical = other.canonical) :
    ∃ position', other.Position position' ∧ position.canonical = position'.canonical := by
  induction h with
  | root => exact ⟨other, .root, same⟩
  | inner _ step ih =>
    obtain ⟨value, reached, forms⟩ := ih
    obtain ⟨document, rfl⟩ := Json.exists_members_of_canonical forms.symm
    obtain ⟨inner', hinner, hform⟩ := step.exists_of_canonical forms
    exact ⟨inner', .inner reached hinner, hform⟩

end SchemaDoc
