import Mathlib.Logic.Function.Iterate
import SchemaDoc.Proofs.Json.FromText
import SchemaDoc.Proofs.Projection.CoherentDocuments

/-!
# How deep documents of unions are

Each of several different documents stands two levels further in than the union of them, or another
one that is like it does. So a union is not deeper with fewer members, and a document is never the
same as a union in which it is an arm, however often that is repeated.
-/
namespace SchemaDoc

/-- Annotations that add nothing to one document add nothing to any. -/
theorem Annotations.overlay_eq_self {notes : Annotations} {document : Members}
    (absent : ∀ name ∈ ["title", "description", "examples"],
      (notes.overlay document).get? name = Option.none) (other : Members) :
    notes.overlay other = other := by
  have silent : notes.writes = [] := by
    apply List.eq_nil_iff_forall_not_mem.mpr
    intro write mem
    obtain ⟨value, -, written⟩ := Members.exists_write_of_mem mem document
    rw [← overlay_eq_putAll, absent write.1 (mem_writes mem).1] at written
    cases written
  rw [overlay_eq_putAll, silent]
  rfl

theorem Literal.depth_of_toJson? {literal : Literal} {value : Json}
    (h : literal.toJson? = some value) : value.depth = 0 := by
  cases literal with
  | number x =>
    obtain ⟨d, -, rfl⟩ := Option.map_eq_some_iff.mp h
    rfl
  | _ =>
    cases h
    rfl

namespace Alternatives

variable {document : Members} {documents others : List Members}

/-- The document for one that has a document, or for nothing at all. -/
def orNothing : Members → Members
  | [] => []
  | document => [("oneOf", .array [.object document, .object []])]

theorem orNothing_of_ne_nil (said : document ≠ []) :
    orNothing document = [("oneOf", .array [.object document, .object []])] := by
  unfold orNothing
  split
  · exact absurd rfl said
  · rfl

theorem orNothing_ne_nil (said : document ≠ []) : orNothing document ≠ [] := by
  rw [orNothing_of_ne_nil said]
  exact List.cons_ne_nil _ _

theorem iterate_orNothing_ne_nil (said : document ≠ []) (n : Nat) :
    orNothing^[n] document ≠ [] := by
  induction n generalizing document with
  | zero => exact said
  | succ n ih => exact ih (orNothing_ne_nil said)

theorem key_eq_nil_iff : (Json.object document).key = (Json.object []).key ↔ document = [] := by
  constructor
  · intro same
    cases Json.alike_of_key_eq same with
    | object hnames _ hperm =>
      rw [hperm.eq_nil] at hnames
      exact List.map_eq_nil_iff.mp hnames.symm
  · rintro rfl
    rfl

theorem join_nothing (document : Members) : join [document, []] = orNothing document := by
  by_cases said : document = []
  · rw [said]
    simp [join, distinct, orNothing]
  · have unlike : (Json.object []).key ≠ (Json.object document).key :=
      fun same => said (key_eq_nil_iff.mp same.symm)
    rw [orNothing_of_ne_nil said]
    simp [join, distinct, unlike, listed, discriminator?, isObjectDocument, Members.get?]

/-! ### The depth of documents -/

theorem depth_eq_of_key {one other : Members}
    (same : (Json.object one).key = (Json.object other).key) :
    (Json.object one).depth = (Json.object other).depth :=
  (Json.alike_of_key_eq same).depth_eq

theorem oneOf_mem_listed (documents : List Members) :
    ("oneOf", .array (documents.map Json.object)) ∈ listed documents := by
  unfold listed
  cases discriminator? documents <;> simp

theorem depth_listed_le {n : Nat} (h : ∀ document ∈ documents, (Json.object document).depth ≤ n) :
    (Json.object (listed documents)).depth ≤ n + 2 := by
  have arms : (Json.array (documents.map Json.object)).depth ≤ n + 1 := by
    refine Nat.succ_le_succ (Json.depthOfItems_le_iff.mpr ?_)
    simpa using h
  have told : ∀ name, (Json.object [("propertyName", .string name)]).depth ≤ n + 1 :=
    fun name => Nat.succ_le_succ (Nat.zero_le n)
  refine Nat.succ_le_succ (Json.depthOfMembers_le_iff.mpr ?_)
  unfold listed
  cases discriminator? documents with
  | none => simpa using arms
  | some name => simpa using ⟨arms, told name⟩

theorem depth_add_two_le_listed (mem : document ∈ documents) :
    (Json.object document).depth + 2 ≤ (Json.object (listed documents)).depth := by
  have arm : (Json.object document).depth < (Json.array (documents.map Json.object)).depth :=
    Json.depth_lt_of_item (List.mem_map_of_mem mem)
  have whole : (Json.array (documents.map Json.object)).depth <
      (Json.object (listed documents)).depth := Json.depth_lt_of_member (oneOf_mem_listed documents)
  omega

theorem depth_le_join (mem : document ∈ documents) :
    (Json.object document).depth ≤ (Json.object (join documents)).depth := by
  obtain ⟨kept, hkept, same⟩ := exists_key_of_mem mem List.not_mem_nil
  rw [← depth_eq_of_key same]
  rcases join_cases (List.ne_nil_of_mem mem) with ⟨only, honly, joined⟩ | ⟨-, joined⟩
  · rw [honly] at hkept
    rw [joined, List.mem_singleton.mp hkept]
  · rw [joined]
    exact Nat.le_of_add_right_le (depth_add_two_le_listed hkept)

/-- Of several different documents, each one is an arm, or is like one. -/
theorem depth_add_two_le_join {other : Members} (mem : document ∈ documents)
    (mem' : other ∈ documents) (unlike : (Json.object document).key ≠ (Json.object other).key) :
    (Json.object document).depth + 2 ≤ (Json.object (join documents)).depth := by
  obtain ⟨kept, hkept, same⟩ := exists_key_of_mem mem List.not_mem_nil
  rcases join_cases (List.ne_nil_of_mem mem) with ⟨only, honly, -⟩ | ⟨-, joined⟩
  · have several := two_le_length_distinct mem mem' unlike
    rw [honly, List.length_singleton] at several
    omega
  · rw [joined, ← depth_eq_of_key same]
    exact depth_add_two_le_listed hkept

/-- With fewer documents, what is made of them is not deeper. -/
theorem depth_join_mono (fewer : others ⊆ documents) (some : others ≠ []) :
    (Json.object (join others)).depth ≤ (Json.object (join documents)).depth := by
  rcases join_cases some with ⟨only, honly, joined⟩ | ⟨several, joined⟩
  · have mem : only ∈ distinct [] others := honly ▸ List.mem_singleton_self only
    rw [joined]
    exact depth_le_join (fewer ((distinct_sublist [] others).subset mem))
  · have arm : ∀ document ∈ distinct [] others,
        (Json.object document).depth + 2 ≤ (Json.object (join documents)).depth := by
      intro document mem
      obtain ⟨other, mem', unlike⟩ := exists_unlike several mem
      have within := List.Subset.trans (distinct_sublist [] others).subset fewer
      exact depth_add_two_le_join (within mem) (within mem') unlike
    obtain ⟨document, mem⟩ := List.exists_mem_of_ne_nil _ (distinct_ne_nil some)
    have deep := arm document mem
    have arms := depth_listed_le (n := (Json.object (join documents)).depth - 2)
      fun document mem => Nat.le_sub_of_add_le (arm document mem)
    rw [joined]
    omega

/-- Documents say nothing together only if each of them says nothing. -/
theorem join_eq_nil_iff (some : documents ≠ []) :
    join documents = [] ↔ ∀ document ∈ documents, document = [] := by
  constructor
  · intro silent document mem
    obtain ⟨kept, hkept, same⟩ := exists_key_of_mem mem List.not_mem_nil
    rcases join_cases some with ⟨only, honly, joined⟩ | ⟨-, joined⟩
    · rw [honly] at hkept
      rw [List.mem_singleton.mp hkept, ← joined, silent] at same
      exact key_eq_nil_iff.mp same.symm
    · have arms := oneOf_mem_listed (distinct [] documents)
      rw [← joined, silent] at arms
      cases arms
  · intro silent
    have kept : ∀ document ∈ distinct [] documents, document = [] :=
      fun document mem => silent document ((distinct_sublist [] documents).subset mem)
    rcases join_cases some with ⟨only, honly, joined⟩ | ⟨several, -⟩
    · exact joined.trans (kept only (honly ▸ List.mem_singleton_self only))
    · obtain ⟨document, mem⟩ := List.exists_mem_of_ne_nil _ (distinct_ne_nil some)
      obtain ⟨other, mem', unlike⟩ := exists_unlike several mem
      rw [kept document mem, kept other mem'] at unlike
      exact absurd rfl unlike

theorem overlay_enumeration_ne_nil (notes : Annotations) (scalar : String) (values : List Json) :
    notes.overlay (enumeration scalar values) ≠ [] := by
  intro silent
  have type := notes.get?_overlay (enumeration scalar values)
    (by decide : "type" ∉ ["title", "description", "examples"])
  rw [silent] at type
  unfold enumeration at type
  split at type <;> cases type

theorem depth_enumeration_le {scalar : String} {values : List Json}
    (flat : ∀ value ∈ values, value.depth = 0) (value : Json) (notes : Annotations) :
    (Json.object (enumeration scalar values)).depth ≤
      (Json.object (notes.overlay (enumeration scalar [value]))).depth := by
  by_cases null : scalar = "null"
  · rw [enumeration, if_pos null]
    exact Nat.succ_le_succ (Nat.zero_le _)
  · have enum : (notes.overlay (enumeration scalar [value])).get? "enum" = some (.array [value]) := by
      rw [notes.get?_overlay _ (by decide), enumeration, if_neg null]
      rfl
    have single : 1 ≤ (Json.array [value]).depth := Nat.succ_le_succ (Nat.zero_le _)
    have whole : (Json.array [value]).depth <
        (Json.object (notes.overlay (enumeration scalar [value]))).depth :=
      Json.depth_lt_of_member (Members.mem_of_get? enum)
    have items : Json.depthOfItems values ≤ 0 :=
      Json.depthOfItems_le_iff.mpr fun value mem => (flat value mem).le
    have shallow : (Json.object (enumeration scalar values)).depth ≤ 2 := by
      rw [enumeration, if_neg null]
      simp only [Json.depth, Json.depthOfMembers]
      omega
    omega

theorem depth_orNothing (said : document ≠ []) :
    (Json.object (orNothing document)).depth = (Json.object document).depth + 2 := by
  rw [orNothing_of_ne_nil said]
  simp [Json.depth, Json.depthOfMembers, Json.depthOfItems]

theorem depth_iterate_orNothing (said : document ≠ []) (n : Nat) :
    (Json.object (orNothing^[n] document)).depth = (Json.object document).depth + 2 * n := by
  induction n generalizing document with
  | zero => rfl
  | succ n ih =>
    rw [Function.iterate_succ_apply, ih (orNothing_ne_nil said), depth_orNothing said]
    omega

end Alternatives

end SchemaDoc
