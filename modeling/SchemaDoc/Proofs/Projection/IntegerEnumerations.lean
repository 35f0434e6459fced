import SchemaDoc.Proofs.Projection.Enumerated
import SchemaDoc.Proofs.Projection.Enumerations

/-!
# Enumerations of integers

A union of literals that are written as different integers is the enumeration of these integers in
their order, and a single one is the enumeration of its own. Wherever such a literal counts among
the members of an enumeration, its integer is in it.
-/
namespace SchemaDoc

/-- The literal is kept as a floating point number that is written as the integer. -/
def Literal.Shows (literal : Literal) (n : Int) : Prop :=
  ∃ x, literal = .number (.finite x) ∧ Number.ofDouble x = .integer n

theorem Literal.Shows.toJson? {literal : Literal} {n : Int} (h : literal.Shows n) :
    literal.toJson? = some (.number (.integer n)) := by
  obtain ⟨x, rfl, written⟩ := h
  rw [Literal.toJson?, Binary64.finite?, Option.map_some, written]

/-! ## Enumerations -/

namespace Alternatives

variable {location : Location} {members : List (Option Literal)}

/-- The document of several numbers. -/
def ofNumbers (numbers : List Number) : Members := enumeration "number" (numbers.map .number)

theorem enumeratesNumbers_ofNumbers (numbers : List Number) :
    (ofNumbers numbers).EnumeratesNumbers numbers := ⟨rfl, rfl⟩

/-- It shows nothing else. -/
theorem showsNumbers_ofNumbers_iff {numbers : List Number} {good : List Number → Prop} :
    (Json.object (ofNumbers numbers)).ShowsNumbers good ↔ good numbers := by
  constructor
  · rintro ⟨shown, others, reached, enumerates, hgood⟩
    rcases reached.eq_or_inner with same | ⟨_, inner, same, step, -⟩
    · cases same
      have listed : Json.array (others.map .number) = .array (numbers.map .number) :=
        Option.some.inj (enumerates.enum.symm.trans (enumeratesNumbers_ofNumbers numbers).enum)
      have injective : Function.Injective Json.number := fun _ _ => Json.number.inj
      rwa [List.map_injective_iff.mpr injective (Json.array.inj listed)] at hgood
    · -- No schema stands inside.
      cases same
      cases step <;> contradiction
  · exact fun h => ⟨_, numbers, .root, enumeratesNumbers_ofNumbers numbers, h⟩

/-- Literals of different integers are all found, in their order. -/
theorem literalValues_eq_integers {old new : List Int} {scalar : Option String}
    (h : List.Forall₂ (fun member n => ∃ literal, member = some literal ∧ literal.Shows n)
      members new)
    (hscalar : ∀ type ∈ scalar, type = "number") (nonempty : members ≠ [] ∨ scalar = some "number")
    (different : (old ++ new).Nodup) :
    literalValues location scalar (old.map fun n => .number (.integer n)) members =
      .ok (some ("number", (old ++ new).map fun n => .number (.integer n))) := by
  induction h generalizing old scalar with
  | nil =>
    rw [nonempty.resolve_left fun h => h rfl, List.append_nil]
    rfl
  | @cons member n members new first _ ih =>
    obtain ⟨_, rfl, x, rfl, written⟩ := first
    have fresh : (old.map fun n => Json.number (.integer n)).any
        (Json.equal (.number (.integer n))) = false := by
      rw [List.any_map, List.any_eq_false]
      intro m mem same
      obtain rfl : n = m := beq_iff_eq.mp same
      exact (List.nodup_append.mp different).2.2 n mem n List.mem_cons_self rfl
    have shift : old ++ n :: new = (old ++ [n]) ++ new := by
      rw [List.append_assoc, List.singleton_append]
    rw [shift] at different ⊢
    rw [literalValues_cons_number hscalar, written, fresh]
    have next := @ih (old ++ [n]) (some "number") (by simp) (.inr rfl) different
    rw [List.map_append] at next
    exact next

/-- Two or more literals of different integers are the enumeration of these. -/
theorem literalEnum_eq_integers {ns : List Int}
    (h : List.Forall₂ (fun member n => ∃ literal, member = some literal ∧ literal.Shows n)
      members ns)
    (several : 2 ≤ members.length) (different : ns.Nodup) :
    literalEnum location members =
      .ok (some (ofNumbers (ns.map .integer))) := by
  have nonempty : members ≠ [] := by
    rintro rfl
    simp at several
  have found := @literalValues_eq_integers location members [] ns none h (by simp) (.inl nonempty)
    different
  rw [List.map_nil] at found
  rw [literalEnum, if_neg (by omega), found, ofNumbers, List.map_map]
  rfl

/-- All literals of an enumeration are of its type. -/
theorem scalarType_of_literalValues {scalar : Option String} {values : List Json}
    {found : String × List Json}
    (h : literalValues location scalar values members = .ok (some found)) :
    (∀ type ∈ scalar, type = found.1) ∧
      ∀ literal, some literal ∈ members → literal.scalarType = found.1 := by
  induction members generalizing scalar values with
  | nil =>
    obtain ⟨type, rfl, rfl⟩ := Option.map_eq_some_iff.mp (Except.ok.inj h)
    simp
  | cons member rest ih =>
    cases member with
    | none => cases h
    | some first =>
      simp only [literalValues] at h
      split at h
      · next same =>
        split at h
        · cases h
        · obtain ⟨here, there⟩ := ih h
          have type := here _ rfl
          refine ⟨fun known hknown => ?_, fun literal mem => ?_⟩
          · obtain rfl : scalar = some known := hknown
            have agrees : known = first.scalarType := by simpa using same
            exact agrees.trans type
          · rcases List.mem_cons.mp mem with same | mem
            · cases same
              exact type
            · exact there literal mem
      · cases h

/-- An enumeration with a number among its members has nothing else. -/
theorem numbers_of_literalEnum {document : Members} {x : Binary64}
    (h : literalEnum location members = .ok (some document)) (mem : some (.number x) ∈ members) :
    2 ≤ members.length ∧ ∀ entry ∈ members, ∃ d, entry = some (.number (.finite d)) := by
  have writable := literalEnum_eq_some h
  unfold literalEnum at h
  split at h
  · cases h
  · next several =>
    refine ⟨by omega, fun entry hentry => ?_⟩
    obtain ⟨literal, value, rfl, hvalue⟩ := writable entry hentry
    obtain ⟨found, hfound, h⟩ := bind_eq_ok.mp h
    cases found with
    | none => cases h
    | some found =>
      obtain ⟨-, types⟩ := scalarType_of_literalValues hfound
      have type : literal.scalarType = "number" := (types literal hentry).trans (types _ mem).symm
      cases literal with
      | number y =>
        obtain ⟨d, hd, -⟩ := Option.map_eq_some_iff.mp hvalue
        cases y with
        | finite y => exact ⟨y, rfl⟩
        | infinite => cases hd
        | undefined => cases hd
      | _ => simp [Literal.scalarType] at type

theorem enumeratesNumbers_of_literalEnum {document : Members} {x : Double}
    (h : literalEnum location members = .ok (some document))
    (mem : some (.number (.finite x)) ∈ members) :
    ∃ numbers, document.EnumeratesNumbers numbers ∧ Number.ofDouble x ∈ numbers := by
  obtain ⟨several, numbers⟩ := numbers_of_literalEnum h mem
  obtain ⟨found, hfound, heach⟩ := literalEnum_eq_numbers numbers several
  rw [hfound location] at h
  cases h
  obtain ⟨scalar, values, same, literals⟩ := exists_values_of_literalEnum (hfound location)
  obtain rfl : found = values := by
    rw [enumeration, if_neg (by decide), enumeration] at same
    split at same
    · simp at same
    · simp only [List.cons.injEq, Prod.mk.injEq, Json.array.injEq, true_and, and_true] at same
      exact same.2
  have written : ∀ value ∈ found, ∃ number, value = Json.number number := by
    intro value hvalue
    obtain ⟨literal, hliteral, hjson⟩ := literals value hvalue
    obtain ⟨d, hd⟩ := numbers _ hliteral
    cases hd
    cases hjson
    exact ⟨_, rfl⟩
  obtain ⟨listed, each⟩ := exists_forall₂ written
  have mapped := map_eq_of_forall₂ (f := id) (g := Json.number) (fun _ _ same => same.symm) each
  rw [List.map_id] at mapped
  rw [← mapped]
  refine ⟨listed, enumeratesNumbers_ofNumbers listed, ?_⟩
  obtain ⟨number, hnumber, same⟩ := List.mem_map.mp (mapped ▸ heach x mem)
  cases same
  exact hnumber

end Alternatives

/-! ## Nodes -/

theorem Annotations.enumeratesNumbers_overlay (notes : Annotations) {document : Members}
    {numbers : List Number} (h : document.EnumeratesNumbers numbers) :
    (notes.overlay document).EnumeratesNumbers numbers :=
  h.of_get?_eq (notes.get?_overlay_of_enumerating document)

/-- The node is of a literal that is shown as the integer. -/
def Schema.Shows (schema : Schema) (n : Int) : Prop :=
  ∃ literal, schema.literal? = some literal ∧ literal.Shows n

theorem Schema.Shows.isVoid_eq_false {schema : Schema} {n : Int} (h : schema.Shows n) :
    schema.isVoid = false := by
  obtain ⟨literal, hliteral, -⟩ := h
  rw [isVoid, Projection.shape_eq_of_literal? hliteral]

namespace Projection

variable {follow : Trail → Reference Schema → Outcome} {inField : Bool} {trail : Trail}

theorem exists_node_of_shows {schema : Schema} {n : Int} (h : schema.Shows n) :
    ∃ document, node follow inField trail schema = .ok document ∧
      document.EnumeratesNumbers [.integer n] := by
  obtain ⟨literal, hliteral, shows⟩ := h
  refine ⟨_, node_of_literal hliteral shows.toJson?, ?_⟩
  obtain ⟨x, rfl, -⟩ := shows
  exact schema.notes.enumeratesNumbers_overlay
    (Alternatives.enumeratesNumbers_ofNumbers [.integer n])

/-- A union of literals of different integers lists them in their order. -/
theorem exists_node_union_of_shows {schema : Schema} {members : List Schema} {ns : List Int}
    (hshape : schema.shape = .union members) (h : List.Forall₂ Schema.Shows members ns)
    (nonempty : members ≠ []) (different : ns.Nodup) :
    ∃ document, node follow inField trail schema = .ok document ∧
      document.EnumeratesNumbers (ns.map .integer) := by
  have all : members.filter (counts inField members) = members := by
    rw [List.filter_eq_self]
    intro member mem
    obtain ⟨n, -, shows⟩ := exists_of_mem_right h.flip mem
    simp [counts, Schema.Shows.isVoid_eq_false shows]
  have literals : List.Forall₂ (fun member n => ∃ literal, member = some literal ∧ literal.Shows n)
      (members.map Schema.literal?) ns := List.forall₂_map_left_iff.mpr h
  rw [node_eq, hshape, shapeOf, all, membersOf_eq_mapM, all]
  by_cases several : 2 ≤ (members.map Schema.literal?).length
  · rw [ofUnion, Alternatives.literalEnum_eq_integers literals several different]
    exact ⟨_, rfl, schema.notes.enumeratesNumbers_overlay
      (Alternatives.enumeratesNumbers_ofNumbers _)⟩
  · -- A member that stands alone is not searched for an enumeration, but is one itself.
    obtain ⟨only, rfl⟩ : ∃ only, members = [only] := by
      apply List.length_eq_one_iff.mp
      have some := List.length_pos_of_ne_nil nonempty
      rw [List.length_map] at several
      omega
    cases h with
    | @cons _ n _ ns shows rest =>
      cases rest
      have none : Alternatives.literalEnum (trail.visit schema.identity).location
          ([only].map Schema.literal?) = .ok none := rfl
      obtain ⟨document, hdocument, enumerates⟩ := @exists_node_of_shows follow false
        ((trail.visit schema.identity).alternative true 0) only _ shows
      rw [ofUnion_of_no_literalEnum none]
      refine ⟨schema.notes.overlay document, ?_,
        schema.notes.enumeratesNumbers_overlay enumerates⟩
      simp [hdocument, Alternatives.join]

end Projection

end SchemaDoc
