import Mathlib.Data.List.Perm.Basic
import SchemaDoc.Proofs.Double.Text
import SchemaDoc.Proofs.Json.Alike
import SchemaDoc.Proofs.Json.Members

/-!
# Two equalities of values

Objects without repeated names are known by what they have under each name, and so two of them are
alike, or equal, exactly if they have alike, or equal, values everywhere. Since numbers that are
written alike are the same, values that are alike are never told apart by `Json.equal`.
-/
namespace SchemaDoc

namespace Members

variable {members others : Members}

/-- Objects with values under the same names have the same names. -/
theorem names_perm_of_rel {R : Json → Json → Prop} (nodup : members.names.Nodup)
    (nodup' : others.names.Nodup)
    (same : ∀ name, Option.Rel R (members.get? name) (others.get? name)) :
    members.names.Perm others.names := by
  apply (List.perm_ext_iff_of_nodup nodup nodup').mpr
  intro name
  rw [← not_iff_not, ← get?_eq_none_iff, ← get?_eq_none_iff]
  exact eq_none_iff_of_optionRel (same name)

/-- The members of another object in the order of the first one. -/
def arrange (members others : Members) : Members :=
  members.map fun member => (member.1, (others.get? member.1).getD .null)

theorem names_arrange (members others : Members) :
    (arrange members others).names = members.names := by
  simp [arrange, names]

theorem perm_arrange (nodup : members.names.Nodup) (nodup' : others.names.Nodup)
    (same : members.names.Perm others.names) : (arrange members others).Perm others := by
  have hnodup : (arrange members others).names.Nodup := names_arrange members others ▸ nodup
  apply (List.perm_ext_iff_of_nodup (hnodup.of_map Prod.fst) (nodup'.of_map Prod.fst)).mpr
  intro entry
  constructor
  · intro mem
    obtain ⟨member, hmember, rfl⟩ := List.mem_map.mp mem
    obtain ⟨other, hother, hname⟩ := List.mem_map.mp (same.mem_iff.mp (List.mem_map_of_mem hmember))
    have there : others.get? member.1 = some other.2 := hname ▸ get?_of_mem nodup' hother
    rw [there]
    exact mem_of_get? there
  · intro mem
    obtain ⟨member, hmember, hname⟩ := List.mem_map.mp (same.mem_iff.mpr (List.mem_map_of_mem mem))
    refine List.mem_map.mpr ⟨member, hmember, ?_⟩
    rw [hname, get?_of_mem nodup' mem]
    rfl

end Members

namespace Number

theorem equal_comm (m n : Number) : m.equal n = n.equal m := by
  cases m <;> cases n
  · exact BEq.comm
  · rfl
  · rfl
  · next x y =>
    have zeros := Bool.and_comm x.isZero y.isZero
    have same : (x == y) = (y == x) := BEq.comm
    simp only [Number.equal, Double.equal, zeros, same]

end Number

namespace Json

variable {members others : Members}

theorem Alike.refl (value : Json) : value.Alike value := by
  induction value using induction_on_values with
  | null => exact .null
  | bool b => exact .bool b
  | number n => exact .number rfl
  | string text => exact .string text
  | array items ih => exact .array (List.forall₂_same.mpr ih)
  | object members ih =>
    apply Alike.object rfl _ (List.Perm.refl members)
    apply List.forall₂_same.mpr
    intro value mem
    obtain ⟨member, hmember, rfl⟩ := List.mem_map.mp mem
    exact ih member hmember

theorem rel_get?_of_alike (h : (object members).Alike (object others))
    (nodup : members.names.Nodup) (nodup' : others.names.Nodup) (name : String) :
    Option.Rel Alike (members.get? name) (others.get? name) := by
  cases h with
  | @object _ _ arranged names values perm =>
    cases found : members.get? name with
    | none =>
      have same : others.names.Perm members.names := names ▸ (perm.map Prod.fst).symm
      have absent : name ∉ others.names := same.mem_iff.not.mpr (Members.get?_eq_none_iff.mp found)
      rw [Members.get?_eq_none_iff.mpr absent]
      exact .none
    | some value =>
      have mem : (name, value) ∈ members := Members.mem_of_get? found
      have hname : name ∈ arranged.names := names ▸ List.mem_map_of_mem mem
      obtain ⟨other, hother, rfl⟩ := List.mem_map.mp hname
      have alike : value.Alike other.2 := rel_of_same_name names values nodup mem hother rfl
      have there : others.get? other.1 = some other.2 :=
        Members.get?_of_mem nodup' (perm.mem_iff.mp hother)
      rw [there]
      exact .some alike

/-- Two objects are alike if they have values that are alike under each name. -/
theorem alike_object_iff (nodup : members.names.Nodup) (nodup' : others.names.Nodup) :
    (object members).Alike (object others) ↔
      ∀ name, Option.Rel Alike (members.get? name) (others.get? name) := by
  refine ⟨fun h => rel_get?_of_alike h nodup nodup', fun same => ?_⟩
  apply Alike.object (Members.names_arrange members others) _
    (Members.perm_arrange nodup nodup' (Members.names_perm_of_rel nodup nodup' same))
  rw [Members.arrange, List.map_map, List.forall₂_map_left_iff, List.forall₂_map_right_iff]
  apply List.forall₂_same.mpr
  intro member mem
  obtain ⟨other, hother, alike⟩ :=
    exists_of_optionRel_left (same member.1) (Members.get?_of_mem nodup mem)
  simpa [hother] using alike

/-! ## Numeric equality -/

theorem equalItems_congr {items items' others : List Json} (alike : List.Forall₂ Alike items items')
    (each : ∀ item ∈ items, ∀ item' ∈ items', ∀ other ∈ others, item.Alike item' →
      item.equal other = item'.equal other) : equalItems items others = equalItems items' others := by
  induction alike generalizing others with
  | nil => rfl
  | @cons item item' rest rest' hfirst _ ih =>
    cases others with
    | nil => rfl
    | cons other others =>
      have first : item.equal other = item'.equal other :=
        each item List.mem_cons_self item' List.mem_cons_self other List.mem_cons_self hfirst
      have further : equalItems rest others = equalItems rest' others :=
        ih fun item mem item' mem' other hother => each item (List.mem_cons_of_mem _ mem) item'
          (List.mem_cons_of_mem _ mem') other (List.mem_cons_of_mem _ hother)
      rw [equalItems, equalItems, first, further]

theorem equalItems_comm {items others : List Json}
    (each : ∀ item ∈ items, ∀ other ∈ others, item.equal other = other.equal item) :
    equalItems items others = equalItems others items := by
  induction items generalizing others with
  | nil => cases others <;> rfl
  | cons item rest ih =>
    cases others with
    | nil => rfl
    | cons other others =>
      have first : item.equal other = other.equal item :=
        each item List.mem_cons_self other List.mem_cons_self
      have further : equalItems rest others = equalItems others rest :=
        ih fun item mem other hother =>
          each item (List.mem_cons_of_mem _ mem) other (List.mem_cons_of_mem _ hother)
      rw [equalItems, equalItems, first, further]

theorem equalMembers_iff {members others : Members} :
    equalMembers members others = true ↔ ∀ member ∈ members,
      ∃ other, others.get? member.1 = some other ∧ member.2.equal other = true := by
  induction members with
  | nil => simp [equalMembers]
  | cons member rest ih =>
    rw [equalMembers, Bool.and_eq_true, ih, List.forall_mem_cons]
    have first : others.get? member.1 = others.lookup member.1 := rfl
    cases found : others.lookup member.1 <;> simp [first, found]

/-- Two objects are equal if they have equal values under each name. -/
theorem equal_object_iff (nodup : members.names.Nodup) (nodup' : others.names.Nodup) :
    (object members).equal (object others) = true ↔
      ∀ name, Option.Rel (fun value other : Json => value.equal other = true)
        (members.get? name) (others.get? name) := by
  rw [equal, Bool.and_eq_true, beq_iff_eq, equalMembers_iff]
  constructor
  · rintro ⟨length, each⟩ name
    have subset : members.names ⊆ others.names := by
      intro name mem
      obtain ⟨member, hmember, rfl⟩ := List.mem_map.mp mem
      obtain ⟨other, found, -⟩ := each member hmember
      have mem : (member.1, other) ∈ others := Members.mem_of_get? found
      exact List.mem_map.mpr ⟨_, mem, rfl⟩
    have perm : members.names.Perm others.names := by
      apply (nodup.subperm subset).perm_of_length_le
      simp [Members.names, length]
    cases found : members.get? name with
    | none =>
      have absent := perm.mem_iff.not.mp (Members.get?_eq_none_iff.mp found)
      rw [Members.get?_eq_none_iff.mpr absent]
      exact .none
    | some value =>
      obtain ⟨other, hother, same⟩ := each (name, value) (Members.mem_of_get? found)
      rw [hother]
      exact .some same
  · intro same
    constructor
    · have perm := Members.names_perm_of_rel nodup nodup' same
      simpa [Members.names] using perm.length_eq
    · intro member mem
      exact exists_of_optionRel_left (same member.1) (Members.get?_of_mem nodup mem)

theorem equal_object_congr {members' : Members} (nodup : members.names.Nodup)
    (nodup' : members'.names.Nodup) (hothers : others.names.Nodup)
    (alike : (object members).Alike (object members'))
    (each : ∀ name value value' other, members.get? name = some value →
      members'.get? name = some value' → others.get? name = some other → value.Alike value' →
        value.equal other = value'.equal other) :
    (object members).equal (object others) = (object members').equal (object others) := by
  rw [Bool.eq_iff_iff, equal_object_iff nodup hothers, equal_object_iff nodup' hothers]
  apply forall_congr'
  intro name
  have same := rel_get?_of_alike alike nodup nodup' name
  cases found : members.get? name with
  | none => rw [(eq_none_iff_of_optionRel same).mp found]
  | some value =>
    obtain ⟨value', found', halike⟩ := exists_of_optionRel_left same found
    rw [found']
    cases there : others.get? name with
    | none => simp
    | some other =>
      rw [Option.rel_some_some, Option.rel_some_some, each name _ _ _ found found' there halike]

theorem equal_object_comm (nodup : members.names.Nodup) (nodup' : others.names.Nodup)
    (each : ∀ name value other, members.get? name = some value → others.get? name = some other →
      value.equal other = other.equal value) :
    (object members).equal (object others) = (object others).equal (object members) := by
  rw [Bool.eq_iff_iff, equal_object_iff nodup nodup', equal_object_iff nodup' nodup]
  apply forall_congr'
  intro name
  cases here : members.get? name with
  | none => cases others.get? name <;> simp
  | some value =>
    cases there : others.get? name with
    | none => simp
    | some other =>
      rw [Option.rel_some_some, Option.rel_some_some, each name value other here there]

theorem Unambiguous.of_get? {value : Json} (h : (Json.object members).Unambiguous) {name : String}
    (found : members.get? name = some value) : value.Unambiguous :=
  h.of_mem (Members.mem_of_get? found)

/-- Of two values that are alike, `Json.equal` says the same. -/
theorem equal_congr {value value' other : Json} (h : value.Alike value')
    (valid : value.Unambiguous) (valid' : value'.Unambiguous) (hother : other.Unambiguous) :
    value.equal other = value'.equal other := by
  induction value using induction_on_values generalizing value' other with
  | null => cases h; rfl
  | bool b => cases h; rfl
  | string text => cases h; rfl
  | number n =>
    cases h with
    | number same => rw [Number.chars_inj same]
  | array items ih =>
    cases h with
    | array alike =>
      cases other with
      | array others =>
        apply equalItems_congr alike
        intro item mem item' mem' other there same
        exact ih item mem same (valid.of_item mem) (valid'.of_item mem') (hother.of_item there)
      | _ => rfl
  | object members ih =>
    cases value' with
    | object members' =>
      cases other with
      | object others =>
        apply equal_object_congr valid.nodup valid'.nodup hother.nodup h
        intro name value value' other here here' there same
        exact ih (name, value) (Members.mem_of_get? here) same (valid.of_get? here)
          (valid'.of_get? here') (hother.of_get? there)
      | _ => rfl
    | _ => cases h

theorem equal_comm {value other : Json} (valid : value.Unambiguous) (hother : other.Unambiguous) :
    value.equal other = other.equal value := by
  induction value using induction_on_values generalizing other with
  | null => cases other <;> rfl
  | bool b =>
    cases other with
    | bool c => exact Bool.beq_comm
    | _ => rfl
  | string text =>
    cases other with
    | string text' => exact BEq.comm
    | _ => rfl
  | number m =>
    cases other with
    | number n => exact m.equal_comm n
    | _ => rfl
  | array items ih =>
    cases other with
    | array others =>
      apply equalItems_comm
      intro item mem other there
      exact ih item mem (valid.of_item mem) (hother.of_item there)
    | _ => rfl
  | object members ih =>
    cases other with
    | object others =>
      apply equal_object_comm valid.nodup hother.nodup
      intro name value other here there
      exact ih (name, value) (Members.mem_of_get? here) (valid.of_get? here) (hother.of_get? there)
    | _ => rfl

/-- Whether two values are equal is the same for values that are like them. -/
theorem equal_congr₂ {value value' other other' : Json} (h : value.Alike value')
    (h' : other.Alike other') (valid : value.Unambiguous) (valid' : value'.Unambiguous)
    (hother : other.Unambiguous) (hother' : other'.Unambiguous) :
    value.equal other = value'.equal other' := by
  calc value.equal other = value'.equal other := equal_congr h valid valid' hother
    _ = other.equal value' := equal_comm valid' hother
    _ = other'.equal value' := equal_congr h' hother hother' valid'
    _ = value'.equal other' := equal_comm hother' valid'

/-- Alike objects have alike members. -/
theorem Alike.rel_get? {value other : Json} (h : value.Alike other) (valid : value.Unambiguous)
    (hother : other.Unambiguous) (name : String) :
    Option.Rel Alike (value.get? name) (other.get? name) := by
  cases value with
  | object members =>
    cases other with
    | object others => exact rel_get?_of_alike h valid.nodup hother.nodup name
    | _ => cases h
  | _ =>
    cases h
    exact .none

end Json

end SchemaDoc
