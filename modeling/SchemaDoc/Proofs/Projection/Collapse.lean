import Mathlib.Data.List.Perm.Basic
import SchemaDoc.Proofs.Projection.CoherentDocuments
import SchemaDoc.Proofs.Projection.Enumerations
import SchemaDoc.Proofs.Projection.Relocation

/-!
# When a union is an enumeration

A union of two or more literals of one scalar type is an enumeration of their values, each of them
once. In whatever order they come, the values are the same. Every other union is made of the
documents of its members, so a union can be projected exactly if its members can.
-/
namespace SchemaDoc

theorem Json.typeName_eq_of_equal {value other : Json} (h : value.equal other = true) :
    value.typeName = other.typeName := by
  cases value <;> cases other <;> simp_all [equal, typeName]

namespace Literal

variable {literal other : Literal} {value : Json}

theorem equal_self (h : literal.toJson? = some value) : value.equal value = true := by
  cases literal with
  | number x =>
    obtain ⟨y, -, rfl⟩ := Option.map_eq_some_iff.mp h
    exact Number.equal_self _
  | string text =>
    cases h
    exact beq_self_eq_true text
  | boolean b =>
    cases h
    exact beq_self_eq_true b
  | null =>
    cases h
    rfl

/-- Literals of one type are of one kind. -/
theorem kinds_of_scalarType_eq (h : literal.scalarType = other.scalarType) :
    (∃ x y, literal = .number x ∧ other = .number y) ∨
      (∃ text text', literal = .string text ∧ other = .string text') ∨
      (∃ b b', literal = .boolean b ∧ other = .boolean b') ∨ literal = .null ∧ other = .null := by
  cases literal <;> cases other <;> simp [scalarType] at h ⊢

/-- The values of literals are equal only if they are the same. -/
theorem eq_of_equal {value' : Json} (h : literal.toJson? = some value)
    (h' : other.toJson? = some value') (same : value.equal value' = true) : value = value' := by
  have types : literal.scalarType = other.scalarType := by
    rw [← typeName_of_toJson? h, ← typeName_of_toJson? h', Json.typeName_eq_of_equal same]
  rcases kinds_of_scalarType_eq types with ⟨x, y, rfl, rfl⟩ | ⟨text, text', rfl, rfl⟩ |
    ⟨b, b', rfl, rfl⟩ | ⟨rfl, rfl⟩
  · obtain ⟨d, -, rfl⟩ := Option.map_eq_some_iff.mp h
    obtain ⟨e, -, rfl⟩ := Option.map_eq_some_iff.mp h'
    exact congrArg Json.number (Number.ofDouble_eq_of_equal same)
  · cases h
    cases h'
    exact congrArg Json.string (beq_iff_eq.mp same)
  · cases h
    cases h'
    exact congrArg Json.bool (beq_iff_eq.mp same)
  · cases h
    cases h'
    rfl

end Literal

namespace Alternatives

variable {location : Location} {scalar : String} {scalar? : Option String} {values : List Json}
  {members : List (Option Literal)}

/-- All members are literals of a type that have a value. -/
def Uniform (scalar : String) (members : List (Option Literal)) : Prop :=
  ∀ member ∈ members, ∃ literal value, member = some literal ∧ literal.scalarType = scalar ∧
    literal.toJson? = some value

/-- The values are those of the literals, each of them once. -/
structure ValuesOf (members : List (Option Literal)) (values : List Json) : Prop where
  nodup : values.Nodup
  mem_iff : ∀ value, value ∈ values ↔
    ∃ literal, some literal ∈ members ∧ literal.toJson? = some value

/-- The values that were collected, with another one unless it is among them. -/
def collect (values : List Json) (value : Json) : List Json :=
  if values.any (Json.equal value) then values else values ++ [value]

theorem subset_collect (values : List Json) (value : Json) : values ⊆ collect values value := by
  unfold collect
  split
  · exact List.Subset.refl values
  · exact List.subset_append_left values [value]

theorem exists_equal_of_collect (values : List Json) {literal : Literal} {value : Json}
    (h : literal.toJson? = some value) : ∃ old ∈ collect values value, value.equal old = true := by
  unfold collect
  split
  · next known => exact List.any_eq_true.mp known
  · exact ⟨value, List.mem_append_right _ (List.mem_singleton_self _), Literal.equal_self h⟩

/-- The search collects a value for every literal and keeps what it has. -/
theorem literalValues_of_uniform (location : Location) (scalar? : Option String)
    (uniform : Uniform scalar members) (fits : ∀ type ∈ scalar?, type = scalar)
    (values : List Json) :
    ∃ found, literalValues location scalar? values members =
        .ok ((if members.isEmpty then scalar? else some scalar).map (·, found)) ∧
      values ⊆ found ∧
      ∀ literal value, some literal ∈ members → literal.toJson? = some value →
        ∃ old ∈ found, value.equal old = true := by
  induction members generalizing scalar? values with
  | nil => exact ⟨values, rfl, List.Subset.refl values, by simp⟩
  | cons member rest ih =>
    obtain ⟨hfirst, hrest⟩ := List.forall_mem_cons.mp uniform
    obtain ⟨literal, value, rfl, rfl, hvalue⟩ := hfirst
    have same : scalar?.all (· = literal.scalarType) = true := by
      cases scalar? with
      | none => rfl
      | some type => exact decide_eq_true (fits type rfl)
    obtain ⟨found, hfound, kept, covered⟩ :=
      ih (some literal.scalarType) hrest (by simp) (collect values value)
    refine ⟨found, ?_, List.Subset.trans (subset_collect values value) kept, ?_⟩
    · rw [literalValues, if_pos same, hvalue]
      exact hfound.trans (by simp)
    · intro other value' mem hother
      rcases List.mem_cons.mp mem with first | later
      · cases first
        cases hvalue.symm.trans hother
        obtain ⟨old, hold, equal⟩ := exists_equal_of_collect values hvalue
        exact ⟨old, kept hold, equal⟩
      · exact covered other value' later hother

theorem uniform_of_literalValues {found : List Json}
    (h : literalValues location scalar? values members = .ok (some (scalar, found))) :
    Uniform scalar members ∧ ∀ type ∈ scalar?, type = scalar := by
  induction members generalizing scalar? values with
  | nil =>
    obtain ⟨type, rfl, same⟩ := Option.map_eq_some_iff.mp (Except.ok.inj h)
    cases same
    exact ⟨List.forall_mem_nil _, by simp⟩
  | cons member rest ih =>
    cases member with
    | none => cases h
    | some literal =>
      simp only [literalValues] at h
      split at h
      · next fits =>
        split at h
        · cases h
        · next value hvalue =>
          obtain ⟨uniform, same⟩ := ih h
          obtain rfl := same literal.scalarType rfl
          refine ⟨List.forall_mem_cons.mpr ⟨⟨literal, value, rfl, rfl, hvalue⟩, uniform⟩, ?_⟩
          intro type htype
          obtain rfl : scalar? = some type := htype
          simpa using fits
      · cases h

theorem valuesOf_of_literalValues
    (h : literalValues location none [] members = .ok (some (scalar, values))) :
    ValuesOf members values := by
  obtain ⟨uniform, -⟩ := uniform_of_literalValues h
  have collected := Collected.start.of_literalValues h
  refine ⟨?_, fun value => ⟨?_, ?_⟩⟩
  · refine collected.distinct.imp_of_mem ?_
    intro one later hone _ different same
    obtain ⟨literal, hliteral, -⟩ := collected.literals one hone
    rw [← same, Literal.equal_self hliteral] at different
    cases different
  · intro mem
    exact (mem_of_literalValues h mem).resolve_left List.not_mem_nil
  · rintro ⟨literal, mem, hvalue⟩
    obtain ⟨found, again, -, covered⟩ :=
      literalValues_of_uniform location none uniform (by simp) []
    obtain rfl : values = found := by
      rw [h] at again
      split at again
      · cases again
      · cases again
        rfl
    obtain ⟨old, hold, equal⟩ := covered literal value mem hvalue
    obtain ⟨other, hother, -⟩ := collected.literals old hold
    rwa [Literal.eq_of_equal hvalue hother equal]

/-- What an enumeration says: the type of all members, and their values. -/
theorem exists_values_of_literalEnum_eq_some {document : Members}
    (h : literalEnum location members = .ok (some document)) :
    ∃ scalar values, document = enumeration scalar values ∧ 2 ≤ members.length ∧
      Uniform scalar members ∧ ValuesOf members values := by
  unfold literalEnum at h
  split at h
  · cases h
  · next several =>
    obtain ⟨found, hfound, h⟩ := bind_eq_ok.mp h
    cases found with
    | none => cases h
    | some found =>
      cases h
      obtain ⟨scalar, values⟩ := found
      exact ⟨scalar, values, rfl, by omega, (uniform_of_literalValues hfound).1,
        valuesOf_of_literalValues hfound⟩

theorem exists_literalEnum_eq_some (location : Location) (uniform : Uniform scalar members)
    (several : 2 ≤ members.length) :
    ∃ document, literalEnum location members = .ok (some document) := by
  obtain ⟨found, hfound, -⟩ :=
    literalValues_of_uniform location none uniform (by simp) []
  have nonempty : members.isEmpty = false := by
    cases members <;> simp at several ⊢
  rw [nonempty] at hfound
  refine ⟨enumeration scalar found, ?_⟩
  rw [literalEnum, if_neg (by omega), hfound]
  rfl

/-- The order of literals does not matter but for the order of their values. -/
theorem literalEnum_perm {others : List (Option Literal)} (perm : members.Perm others)
    {document : Members} (h : literalEnum location members = .ok (some document)) :
    ∃ scalar values values', document = enumeration scalar values ∧
      literalEnum location others = .ok (some (enumeration scalar values')) ∧
      values.Perm values' := by
  obtain ⟨scalar, values, rfl, several, uniform, valuesOf⟩ := exists_values_of_literalEnum_eq_some h
  have uniform' : Uniform scalar others := fun member mem => uniform member (perm.mem_iff.mpr mem)
  obtain ⟨document', found⟩ := exists_literalEnum_eq_some location uniform'
    (perm.length_eq ▸ several)
  obtain ⟨scalar', values', rfl, several', uniform'', valuesOf'⟩ :=
    exists_values_of_literalEnum_eq_some found
  have same : scalar' = scalar := by
    obtain ⟨member, mem⟩ := List.exists_mem_of_length_pos (by omega : 0 < others.length)
    obtain ⟨literal, _, rfl, rfl, -⟩ := uniform' member mem
    obtain ⟨literal', _, same, rfl, -⟩ := uniform'' _ mem
    rw [Option.some.inj same]
  subst same
  refine ⟨scalar', values, values', rfl, found, ?_⟩
  apply (List.perm_ext_iff_of_nodup valuesOf.nodup valuesOf'.nodup).mpr
  intro value
  rw [valuesOf.mem_iff, valuesOf'.mem_iff]
  simp only [perm.mem_iff]

end Alternatives

/-! ## The document of a union -/

namespace Projection

variable {bindings : Bindings} {cap remaining : Nat} {inField : Bool} {trail : Trail}
  {members : List Schema}

/-- The members that count have one document each, and where they stand in the union does not
matter for it. -/
theorem membersOf_eq_ok_iff (keep : Schema → Bool) (alone : Bool) {documents : List Members} :
    membersOf (follow bindings cap remaining) keep trail alone 0 members = .ok documents ↔
      List.Forall₂ (fun member document =>
        node (follow bindings cap remaining) false trail member = .ok document)
        (members.filter keep) documents := by
  have placed : ∀ (member : Schema) (i : Nat) (document : Members),
      node (follow bindings cap remaining) false (trail.alternative alone i) member =
          .ok document ↔
        node (follow bindings cap remaining) false trail member = .ok document :=
    fun member i document => node_eq_ok_iff_of_visited (Trail.alternative_visited trail alone i)
  rw [membersOf_eq_mapM]
  constructor
  · intro h
    apply forall₂_of_zipIdx (i := 0)
    exact (forall₂_of_mapM_eq_ok h).imp fun member document => (placed _ _ _).mp
  · intro h
    apply mapM_eq_ok_of_forall₂
    exact (forall₂_zipIdx h.flip 0).flip.imp fun member document => (placed _ _ _).mpr

/-- Members that have documents are no obstacle to the search for an enumeration. -/
theorem literalEnum_ne_error {location : Location} {error : ProjectionError}
    {follow : Trail → Reference Schema → Outcome}
    (each : ∀ member ∈ members, ∃ document, node follow false trail member = .ok document) :
    Alternatives.literalEnum location (members.map Schema.literal?) ≠ .error error := by
  intro failed
  obtain ⟨literal, mem, none⟩ := Alternatives.literalEnum_eq_error failed
  obtain ⟨member, hmember, hshape⟩ := exists_member_of_literal mem
  obtain ⟨document, hdocument⟩ := each member hmember
  rw [node_eq, hshape, shapeOf, ofLiteral, none] at hdocument
  cases hdocument

/-- A union is the enumeration of its members, or is joined from their documents. -/
theorem node_union_eq_ok_iff (identity : Identity) (notes : Annotations) {document : Members} :
    node (follow bindings cap remaining) inField trail (.node identity (.union members) notes) =
        .ok document ↔
      ∃ made, document = notes.overlay made ∧
        (Alternatives.literalEnum []
            ((members.filter (counts inField members)).map Schema.literal?) = .ok (some made) ∨
          Alternatives.literalEnum []
            ((members.filter (counts inField members)).map Schema.literal?) = .ok none ∧
          ∃ documents, List.Forall₂ (fun member document =>
              node (follow bindings cap remaining) false (trail.visit identity) member =
                .ok document)
              (members.filter (counts inField members)) documents ∧
            made = Alternatives.join documents) := by
  have moved : ∀ location found, Alternatives.literalEnum location
      ((members.filter (counts inField members)).map Schema.literal?) = .ok found ↔
        Alternatives.literalEnum []
          ((members.filter (counts inField members)).map Schema.literal?) = .ok found :=
    fun location found => (moves_literalEnum (R := fun _ _ => True) trivial _).eq_ok_iff
  constructor
  · intro h
    obtain ⟨made, hmade, h⟩ := bind_eq_ok.mp h
    cases h
    refine ⟨made, rfl, ?_⟩
    obtain ⟨found, hfound, hmade⟩ := bind_eq_ok.mp hmade
    cases found with
    | some document =>
      cases hmade
      exact .inl ((moved _ _).mp hfound)
    | none =>
      obtain ⟨documents, hdocuments, hmade⟩ := bind_eq_ok.mp hmade
      cases hmade
      exact .inr ⟨(moved _ _).mp hfound, documents, (membersOf_eq_ok_iff _ _).mp hdocuments, rfl⟩
  · rintro ⟨made, rfl, h⟩
    apply bind_eq_ok.mpr
    refine ⟨made, ?_, rfl⟩
    rcases h with found | ⟨found, documents, hdocuments, rfl⟩
    · exact bind_eq_ok.mpr ⟨some made, (moved _ _).mpr found, rfl⟩
    · apply bind_eq_ok.mpr
      refine ⟨none, (moved _ _).mpr found, ?_⟩
      exact bind_eq_ok.mpr ⟨documents, (membersOf_eq_ok_iff _ _).mpr hdocuments, rfl⟩

/-- A union has a document exactly if the members that count have one. -/
theorem exists_node_union_iff (identity : Identity) (notes : Annotations) :
    (∃ document, node (follow bindings cap remaining) inField trail
        (.node identity (.union members) notes) = .ok document) ↔
      ∀ member ∈ members.filter (counts inField members), ∃ document,
        node (follow bindings cap remaining) false (trail.visit identity) member =
          .ok document := by
  constructor
  · rintro ⟨document, h⟩ member mem
    obtain ⟨made, -, ways⟩ := (node_union_eq_ok_iff identity notes).mp h
    rcases ways with found | ⟨-, documents, hdocuments, -⟩
    · obtain ⟨_, _, -, -, uniform, -⟩ := Alternatives.exists_values_of_literalEnum_eq_some found
      obtain ⟨literal, value, hliteral, -, hvalue⟩ := uniform _ (List.mem_map_of_mem mem)
      exact exists_ok_of_not_fails (not_fails_node_of_literal hliteral hvalue)
    · obtain ⟨document, -, hdocument⟩ := exists_of_mem_right hdocuments.flip mem
      exact ⟨document, hdocument⟩
  · intro each
    obtain ⟨documents, hdocuments⟩ := exists_forall₂ each
    cases found : Alternatives.literalEnum []
        ((members.filter (counts inField members)).map Schema.literal?) with
    | error error => exact absurd found (literalEnum_ne_error each)
    | ok made =>
      cases made with
      | some made => exact ⟨_, (node_union_eq_ok_iff identity notes).mpr ⟨made, rfl, .inl found⟩⟩
      | none =>
        exact ⟨_, (node_union_eq_ok_iff identity notes).mpr
          ⟨_, rfl, .inr ⟨found, documents, hdocuments, rfl⟩⟩⟩

end Projection

end SchemaDoc
