import Mathlib.Data.List.Sort
import SchemaDoc.Json.Canonical
import SchemaDoc.Proofs.InStep

/-!
# Equality up to the order of members

`Json.Alike` is equality of values in which neither the order of members counts, at any depth, nor
how a number came about, but only how it is written. Values that are alike have the same key, as
long as no object in them has two members of one name. So documents whose keys differ are not
alike. Values that are alike are also equally deep, so a value is never alike one inside it.
-/
namespace SchemaDoc

namespace Json

/-- What passes from the items and members of every value to the value holds of all values. -/
theorem induction_on_values {motive : Json → Prop} (null : motive .null)
    (bool : ∀ b, motive (.bool b)) (number : ∀ n, motive (.number n))
    (string : ∀ text, motive (.string text))
    (array : ∀ items, (∀ item ∈ items, motive item) → motive (.array items))
    (object : ∀ members : Members, (∀ member ∈ members, motive member.2) →
      motive (.object members)) (value : Json) : motive value := by
  match value with
  | .null => exact null
  | .bool b => exact bool b
  | .number n => exact number n
  | .string text => exact string text
  | .array items =>
    exact array items fun item _ =>
      induction_on_values null bool number string array object item
  | .object members =>
    exact object members fun member _ =>
      induction_on_values null bool number string array object member.2
termination_by sizeOf value
decreasing_by
  · next mem =>
    have smaller := List.sizeOf_lt_of_mem mem
    simp only [Json.array.sizeOf_spec]
    omega
  · next mem =>
    have smaller := List.sizeOf_lt_of_mem mem
    obtain ⟨name, inner⟩ := member
    simp only [Json.object.sizeOf_spec, Prod.mk.sizeOf_spec] at smaller ⊢
    omega

/-- The name of the type of a value. -/
def typeName : Json → String
  | null => "null"
  | bool _ => "boolean"
  | number _ => "number"
  | string _ => "string"
  | array _ => "array"
  | object _ => "object"

/-- No object in the value has two members of one name. -/
inductive Unambiguous : Json → Prop
  | null : Unambiguous .null
  | bool (b : Bool) : Unambiguous (.bool b)
  | number (n : Number) : Unambiguous (.number n)
  | string (text : String) : Unambiguous (.string text)
  | array {items : List Json} : (∀ item ∈ items, Unambiguous item) → Unambiguous (.array items)
  | object {members : Members} : members.names.Nodup →
      (∀ member ∈ members, Unambiguous member.2) → Unambiguous (.object members)

theorem unambiguous_empty : (Json.object []).Unambiguous :=
  .object List.nodup_nil (List.forall_mem_nil _)

theorem Unambiguous.of_mem {members : Members} (h : (Json.object members).Unambiguous)
    {member : String × Json} (mem : member ∈ members) : member.2.Unambiguous := by
  cases h with
  | object _ values => exact values member mem

theorem Unambiguous.nodup {members : Members} (h : (Json.object members).Unambiguous) :
    members.names.Nodup := by
  cases h with
  | object nodup _ => exact nodup

theorem Unambiguous.of_item {items : List Json} (h : (Json.array items).Unambiguous) {item : Json}
    (mem : item ∈ items) : item.Unambiguous := by
  cases h with
  | array values => exact values item mem

/-- Equality up to the order of members; numbers are compared as they are written. -/
inductive Alike : Json → Json → Prop
  | null : Alike .null .null
  | bool (b : Bool) : Alike (.bool b) (.bool b)
  | number {m n : Number} : m.chars = n.chars → Alike (.number m) (.number n)
  | string (text : String) : Alike (.string text) (.string text)
  | array {items others : List Json} : List.Forall₂ Alike items others →
      Alike (.array items) (.array others)
  | object {members others arranged : Members} : arranged.names = members.names →
      List.Forall₂ Alike (members.map Prod.snd) (arranged.map Prod.snd) →
      arranged.Perm others → Alike (.object members) (.object others)

end Json

namespace Members

/-! ## Members in the order of their names -/

theorem perm_insertOrdered (member : String × Json) (members : Members) :
    (insertOrdered member members).Perm (member :: members) := by
  induction members with
  | nil => exact .refl _
  | cons other rest ih =>
    unfold insertOrdered
    split
    · exact .refl _
    · exact (ih.cons other).trans (.swap member other rest)

theorem perm_ordered (members : Members) : members.ordered.Perm members := by
  induction members with
  | nil => exact .refl _
  | cons member rest ih => exact (perm_insertOrdered member (ordered rest)).trans (ih.cons member)

theorem pairwise_insertOrdered {member : String × Json} {members : Members}
    (h : members.Pairwise fun first second => first.1 ≤ second.1) :
    (insertOrdered member members).Pairwise fun first second => first.1 ≤ second.1 := by
  induction members with
  | nil => exact List.pairwise_singleton _ _
  | cons other rest ih =>
    obtain ⟨hother, hrest⟩ := List.pairwise_cons.mp h
    unfold insertOrdered
    split
    · next le =>
      refine List.pairwise_cons.mpr ⟨List.forall_mem_cons.mpr ⟨le, fun later mem => ?_⟩, h⟩
      exact String.le_trans le (hother later mem)
    · next notLe =>
      have ge : other.1 ≤ member.1 := (String.le_total other.1 member.1).resolve_right notLe
      refine List.pairwise_cons.mpr ⟨fun later mem => ?_, ih hrest⟩
      rcases List.mem_cons.mp ((perm_insertOrdered member rest).mem_iff.mp mem) with rfl | mem
      · exact ge
      · exact hother later mem

theorem pairwise_ordered (members : Members) :
    members.ordered.Pairwise fun first second => first.1 ≤ second.1 := by
  induction members with
  | nil => exact .nil
  | cons member rest ih => exact pairwise_insertOrdered ih

/-- The order of names does not depend on the order they were in. -/
theorem names_ordered_of_perm {members others : Members} (h : members.names.Perm others.names) :
    members.ordered.names = others.ordered.names := by
  have first : members.ordered.names.Pairwise (· ≤ ·) :=
    List.pairwise_map.mpr (pairwise_ordered members)
  have second : others.ordered.names.Pairwise (· ≤ ·) :=
    List.pairwise_map.mpr (pairwise_ordered others)
  have perm : members.ordered.names.Perm others.ordered.names :=
    ((perm_ordered members).map _).trans (h.trans ((perm_ordered others).map _).symm)
  exact perm.eq_of_pairwise (fun _ _ _ _ => String.le_antisymm) first second

end Members

namespace Json

theorem canonicalMembers_eq_map (members : Members) :
    canonicalMembers members = members.map fun member => (member.1, member.2.canonical) := by
  induction members with
  | nil => rfl
  | cons member rest ih => rw [canonicalMembers, ih, List.map_cons]

theorem canonicalItems_eq_map (items : List Json) :
    canonicalItems items = items.map canonical := by
  induction items with
  | nil => rfl
  | cons item rest ih => rw [canonicalItems, ih, List.map_cons]

theorem itemTexts_eq_map (items : List Json) : itemTexts items = items.map chars := by
  induction items with
  | nil => rfl
  | cons item rest ih => rw [itemTexts, ih, List.map_cons]

theorem memberTexts_eq_map (members : Members) :
    memberTexts members = members.map fun member => quoted member.1 ++ ':' :: member.2.chars := by
  induction members with
  | nil => rfl
  | cons member rest ih => rw [memberTexts, ih, List.map_cons]

/-- Members with the same names whose values are written alike, name by name, make the same text
once they are ordered. -/
theorem memberTexts_ordered_eq {members others : Members}
    (names : members.names.Perm others.names)
    (values : ∀ member ∈ members, ∀ other ∈ others, member.1 = other.1 →
      member.2.chars = other.2.chars) :
    memberTexts members.ordered = memberTexts others.ordered := by
  have hnames := Members.names_ordered_of_perm names
  have hvalues : ∀ member ∈ members.ordered, ∀ other ∈ others.ordered, member.1 = other.1 →
      member.2.chars = other.2.chars := fun member hmember other hother =>
    values member ((Members.perm_ordered members).mem_iff.mp hmember) other
      ((Members.perm_ordered others).mem_iff.mp hother)
  rw [memberTexts_eq_map, memberTexts_eq_map]
  generalize members.ordered = first at hnames hvalues ⊢
  generalize others.ordered = second at hnames hvalues ⊢
  induction first generalizing second with
  | nil =>
    obtain rfl : second = [] := List.map_eq_nil_iff.mp hnames.symm
    rfl
  | cons member rest ih =>
    cases second with
    | nil => cases hnames
    | cons other rest' =>
      obtain ⟨hname, htail⟩ := List.cons_eq_cons.mp hnames
      have hchars := hvalues member List.mem_cons_self other List.mem_cons_self hname
      have hrest := ih rest' htail fun one hone two htwo =>
        hvalues one (List.mem_cons_of_mem _ hone) two (List.mem_cons_of_mem _ htwo)
      rw [List.map_cons, List.map_cons, hrest, hname, hchars]

theorem chars_canonical_array {items others : List Json}
    (h : List.Forall₂ (fun item other : Json => item.canonical.chars = other.canonical.chars)
      items others) : (array items).canonical.chars = (array others).canonical.chars := by
  have texts : (others.map fun item => item.canonical.chars) =
      items.map fun item => item.canonical.chars :=
    map_eq_of_forall₂ (fun _ _ same => same.symm) h
  simp only [canonical, chars, itemTexts_eq_map, canonicalItems_eq_map, List.map_map,
    Function.comp_def, texts]

/-- For the text of an object only the texts of its values count, name by name. -/
theorem chars_canonical_object {members others : Members}
    (names : members.names.Perm others.names)
    (values : ∀ member ∈ members, ∀ other ∈ others, member.1 = other.1 →
      member.2.canonical.chars = other.2.canonical.chars) :
    (object members).canonical.chars = (object others).canonical.chars := by
  have texts : memberTexts (Members.ordered (canonicalMembers members)) =
      memberTexts (Members.ordered (canonicalMembers others)) := by
    rw [canonicalMembers_eq_map, canonicalMembers_eq_map]
    refine memberTexts_ordered_eq ?_ ?_
    · simpa [Members.names, Function.comp_def] using names
    · intro first hfirst second hsecond same
      obtain ⟨member, hmember, rfl⟩ := List.mem_map.mp hfirst
      obtain ⟨other, hother, rfl⟩ := List.mem_map.mp hsecond
      exact values member hmember other hother same
  rw [canonical, canonical, chars, chars, texts]

/-- Values that are alike are written in the same way once their members are ordered. -/
theorem chars_canonical_eq_of_alike {value other : Json} (h : value.Alike other)
    (hvalue : value.Unambiguous) (hother : other.Unambiguous) :
    value.canonical.chars = other.canonical.chars := by
  induction value using induction_on_values generalizing other with
  | null => cases h; rfl
  | bool b => cases h; rfl
  | number n =>
    cases h with
    | number hchars => simpa [canonical, chars] using hchars
  | string text => cases h; rfl
  | array items ih =>
    cases h with
    | array hitems =>
      cases hvalue with
      | array hitemsOk =>
        cases hother with
        | array hothersOk =>
          refine chars_canonical_array ((forall₂_mem_both hitems).imp ?_)
          rintro item other ⟨⟨mem, alike⟩, hother⟩
          exact ih item mem alike (hitemsOk item mem) (hothersOk other hother)
  | object members ih =>
    cases h with
    | object hnames hvalues hperm =>
      cases hvalue with
      | object hnodup hmembersOk =>
        cases hother with
        | object _ hothersOk =>
          refine chars_canonical_object (hnames ▸ hperm.map Prod.fst) ?_
          intro member hmember other hother same
          have alike : member.2.Alike other.2 := rel_of_same_name hnames hvalues hnodup hmember
            (hperm.mem_iff.mpr hother) same
          exact ih member hmember alike (hmembersOk member hmember) (hothersOk other hother)

theorem key_eq_of_alike {value other : Json} (h : value.Alike other)
    (hvalue : value.Unambiguous) (hother : other.Unambiguous) : value.key = other.key := by
  rw [key, key, compact, compact, chars_canonical_eq_of_alike h hvalue hother]

/-! ## Depth -/

mutual

/-- How many arrays and objects of a value stand inside one another. -/
def depth : Json → Nat
  | array items => depthOfItems items + 1
  | object members => depthOfMembers members + 1
  | null => 0
  | bool _ => 0
  | number _ => 0
  | string _ => 0

def depthOfItems : List Json → Nat
  | [] => 0
  | item :: rest => max item.depth (depthOfItems rest)

def depthOfMembers : List (String × Json) → Nat
  | [] => 0
  | (_, value) :: rest => max value.depth (depthOfMembers rest)

end

theorem depthOfItems_le_iff {items : List Json} {n : Nat} :
    depthOfItems items ≤ n ↔ ∀ item ∈ items, item.depth ≤ n := by
  induction items with
  | nil => simp [depthOfItems]
  | cons item rest ih => rw [depthOfItems, Nat.max_le, ih, List.forall_mem_cons]

theorem depthOfMembers_le_iff {members : Members} {n : Nat} :
    depthOfMembers members ≤ n ↔ ∀ member ∈ members, member.2.depth ≤ n := by
  induction members with
  | nil => simp [depthOfMembers]
  | cons member rest ih => rw [depthOfMembers, Nat.max_le, ih, List.forall_mem_cons]

theorem depth_lt_of_item {items : List Json} {item : Json} (mem : item ∈ items) :
    item.depth < (Json.array items).depth :=
  Nat.lt_succ_of_le (depthOfItems_le_iff.mp (Nat.le_refl _) item mem)

theorem depth_lt_of_member {members : Members} {member : String × Json} (mem : member ∈ members) :
    member.2.depth < (Json.object members).depth :=
  Nat.lt_succ_of_le (depthOfMembers_le_iff.mp (Nat.le_refl _) member mem)

/-- Values that are alike are equally deep. -/
theorem Alike.depth_eq {value other : Json} (h : value.Alike other) :
    value.depth = other.depth := by
  induction value using induction_on_values generalizing other with
  | null => cases h; rfl
  | bool b => cases h; rfl
  | number n => cases h; rfl
  | string text => cases h; rfl
  | array items ih =>
    cases h with
    | @array _ others hitems =>
      have same : depthOfItems items = depthOfItems others := by
        refine eq_of_forall_ge_iff fun n => ?_
        rw [depthOfItems_le_iff, depthOfItems_le_iff]
        apply forall_mem_iff_of_forall₂ _ (forall₂_mem hitems)
        rintro item other ⟨mem, alike⟩
        rw [ih item mem alike]
      rw [depth, depth, same]
  | object members ih =>
    cases h with
    | @object _ others arranged hnames hvalues hperm =>
      have same : depthOfMembers members = depthOfMembers others := by
        refine eq_of_forall_ge_iff fun n => ?_
        have values : (∀ value ∈ members.map Prod.snd, value.depth ≤ n) ↔
            ∀ value ∈ arranged.map Prod.snd, value.depth ≤ n := by
          apply forall_mem_iff_of_forall₂ _ (forall₂_mem hvalues)
          rintro value other ⟨mem, alike⟩
          obtain ⟨member, hmember, rfl⟩ := List.mem_map.mp mem
          rw [ih member hmember alike]
        rw [List.forall_mem_map, List.forall_mem_map] at values
        rw [depthOfMembers_le_iff, depthOfMembers_le_iff, values]
        exact forall_congr' fun member => imp_congr_left hperm.mem_iff
      rw [depth, depth, same]

end Json

end SchemaDoc
