import Mathlib.Data.List.Nodup
import SchemaDoc.Json.Basic

/-!
# Members after writing

Writing a member settles the value of its name and leaves every other name alone. After several
writes a name has the value of the last write to it, if there is any, and stands where it was first
written.
-/
namespace SchemaDoc

section

variable {α : Type} {entries : List (String × α)} {key : String} {entry : α}

theorem mem_of_lookup (h : entries.lookup key = some entry) : (key, entry) ∈ entries := by
  obtain ⟨before, after, rfl, -⟩ := List.lookup_eq_some_iff.mp h
  exact List.mem_append_right _ List.mem_cons_self

/-- Where no key is used twice, every entry is found under its key. -/
theorem lookup_of_mem (nodup : (entries.map Prod.fst).Nodup) (mem : (key, entry) ∈ entries) :
    entries.lookup key = some entry := by
  obtain ⟨before, after, rfl⟩ := List.append_of_mem mem
  refine List.lookup_eq_some_iff.mpr ⟨before, after, rfl, fun other hother => ?_⟩
  rw [List.map_append] at nodup
  have apart := (List.nodup_append.mp nodup).2.2 other.1 (List.mem_map_of_mem hother) key
    List.mem_cons_self
  exact bne_iff_ne.mpr apart.symm

theorem lookup_eq_none_of_notMem (h : key ∉ entries.map Prod.fst) : entries.lookup key = none := by
  rw [List.lookup_eq_none_iff]
  intro other mem
  simp only [bne_iff_ne]
  rintro rfl
  exact h (List.mem_map_of_mem mem)

end

namespace Members

variable {name other : String} {value : Json} {members document : Members}

theorem get?_put_self (members : Members) (name : String) (value : Json) :
    (members.put name value).get? name = some value := by
  induction members with
  | nil => simp [put, get?]
  | cons member rest ih =>
    obtain ⟨first, old⟩ := member
    unfold put
    split
    · simp [get?]
    · next hne =>
      have hname : (name == first) = false := beq_eq_false_iff_ne.mpr (Ne.symm hne)
      rw [get?, List.lookup_cons, hname]
      exact ih

theorem get?_put_of_ne (hne : other ≠ name) (members : Members) (value : Json) :
    (members.put name value).get? other = members.get? other := by
  induction members with
  | nil => simp [put, get?, List.lookup_cons, beq_eq_false_iff_ne.mpr hne]
  | cons member rest ih =>
    obtain ⟨first, old⟩ := member
    unfold put
    split
    · next heq =>
      subst heq
      simp [get?, List.lookup_cons, beq_eq_false_iff_ne.mpr hne]
    · rw [get?, get?, List.lookup_cons, List.lookup_cons]
      cases other == first with
      | true => rfl
      | false => exact ih

@[simp] theorem putAll_cons (document : Members) (member : String × Json) (rest : Members) :
    putAll document (member :: rest) = putAll (document.put member.1 member.2) rest := rfl

theorem putAll_append (document first second : Members) :
    putAll document (first ++ second) = putAll (putAll document first) second :=
  List.foldl_append

theorem get?_putAll_of_not_mem {added : Members} (h : ∀ member ∈ added, member.1 ≠ name)
    (document : Members) : (putAll document added).get? name = document.get? name := by
  induction added generalizing document with
  | nil => rfl
  | cons member rest ih =>
    rw [putAll_cons, ih fun member mem => h member (List.mem_cons_of_mem _ mem)]
    exact get?_put_of_ne (h member List.mem_cons_self).symm document member.2

/-- A name that is written has, in the end, the value of one of its writes. -/
theorem exists_write_of_mem {added : Members} {member : String × Json} (hmem : member ∈ added)
    (document : Members) :
    ∃ value, (member.1, value) ∈ added ∧ (putAll document added).get? member.1 = some value := by
  induction added generalizing document member with
  | nil => cases hmem
  | cons first rest ih =>
    by_cases later : ∃ write ∈ rest, write.1 = member.1
    · obtain ⟨write, hwrite, hname⟩ := later
      obtain ⟨value, hvalue, hget⟩ := ih hwrite (document.put first.1 first.2)
      rw [hname] at hvalue hget
      exact ⟨value, List.mem_cons_of_mem _ hvalue, hget⟩
    · have hrest : ∀ write ∈ rest, write.1 ≠ member.1 :=
        fun write hwrite hname => later ⟨write, hwrite, hname⟩
      have hfirst : member = first := by
        rcases List.mem_cons.mp hmem with heq | hmem
        · exact heq
        · exact absurd rfl (hrest member hmem)
      subst hfirst
      refine ⟨member.2, List.mem_cons_self, ?_⟩
      rw [putAll_cons, get?_putAll_of_not_mem hrest, get?_put_self]

/-- Writes that agree wherever they meet are all there in the end. -/
theorem get?_putAll_of_agree {added : Members}
    (agree : ∀ first ∈ added, ∀ second ∈ added, first.1 = second.1 → first.2 = second.2)
    {member : String × Json} (hmem : member ∈ added) (document : Members) :
    (putAll document added).get? member.1 = some member.2 := by
  obtain ⟨value, hvalue, hget⟩ := exists_write_of_mem hmem document
  have same : value = member.2 := agree _ hvalue member hmem rfl
  rw [hget, same]

/-! ## Names -/

theorem mem_of_get? (h : members.get? name = some value) : (name, value) ∈ members :=
  mem_of_lookup h

theorem get?_eq_none_iff : members.get? name = none ↔ name ∉ members.names := by
  constructor
  · intro absent mem
    obtain ⟨member, hmember, rfl⟩ := List.mem_map.mp mem
    have different := List.lookup_eq_none_iff.mp absent member hmember
    simp at different
  · exact lookup_eq_none_of_notMem

theorem get?_of_mem (nodup : members.names.Nodup) (mem : (name, value) ∈ members) :
    members.get? name = some value :=
  lookup_of_mem nodup mem

theorem mem_ofOption {member : String × Json} {value? : Option Json} :
    member ∈ ofOption name value? ↔ ∃ value, value? = some value ∧ member = (name, value) := by
  cases value? <;> simp [ofOption]

theorem forall_mem_ofOption {P : Json → Prop} {value? : Option Json}
    (h : ∀ value, value? = some value → P value) : ∀ member ∈ ofOption name value?, P member.2 := by
  intro member mem
  obtain ⟨value, told, rfl⟩ := mem_ofOption.mp mem
  exact h value told

theorem get?_append (first second : Members) (name : String) :
    Members.get? (first ++ second) name = (first.get? name).or (second.get? name) :=
  List.lookup_append

theorem get?_ofOption_of_ne (h : other ≠ name) (value? : Option Json) :
    (ofOption name value?).get? other = none := by
  cases value? <;> simp [ofOption, get?, List.lookup_cons, beq_eq_false_iff_ne.mpr h]

theorem put_of_not_mem (h : name ∉ members.names) (value : Json) :
    members.put name value = members ++ [(name, value)] := by
  induction members with
  | nil => rfl
  | cons member rest ih =>
    obtain ⟨first, old⟩ := member
    obtain ⟨hne, hrest⟩ : name ≠ first ∧ name ∉ names rest := by
      simpa [names] using h
    rw [put, if_neg (Ne.symm hne), ih hrest, List.cons_append]

theorem mem_put {member : String × Json} (h : member ∈ members.put name value) :
    member ∈ members ∨ member = (name, value) := by
  induction members with
  | nil => exact .inr (List.mem_singleton.mp h)
  | cons first rest ih =>
    unfold put at h
    split at h
    · rcases List.mem_cons.mp h with rfl | h
      · exact .inr rfl
      · exact .inl (List.mem_cons_of_mem _ h)
    · rcases List.mem_cons.mp h with rfl | h
      · exact .inl List.mem_cons_self
      · exact (ih h).imp_left (List.mem_cons_of_mem _)

theorem mem_putAll {added : Members} {member : String × Json} (h : member ∈ putAll members added) :
    member ∈ members ∨ member ∈ added := by
  induction added generalizing members with
  | nil => exact .inl h
  | cons first rest ih =>
    rcases ih h with old | new
    · rcases mem_put old with old | rfl
      · exact .inl old
      · exact .inr List.mem_cons_self
    · exact .inr (List.mem_cons_of_mem first new)

/-- No name is written twice. -/
theorem nodup_names_put (h : members.names.Nodup) (name : String) (value : Json) :
    (members.put name value).names.Nodup := by
  induction members with
  | nil => simp [put, names]
  | cons member rest ih =>
    obtain ⟨first, old⟩ := member
    obtain ⟨fresh, hrest⟩ := List.nodup_cons.mp h
    unfold put
    split
    · next same => exact List.nodup_cons.mpr ⟨same ▸ fresh, hrest⟩
    · next different =>
      refine List.nodup_cons.mpr ⟨fun mem => ?_, ih hrest⟩
      obtain ⟨member, hmember, hname⟩ := List.mem_map.mp mem
      rcases mem_put hmember with hmember | rfl
      · exact fresh (hname ▸ List.mem_map_of_mem hmember)
      · exact different hname.symm

theorem nodup_names_putAll (h : members.names.Nodup) (added : Members) :
    (putAll members added).names.Nodup := by
  induction added generalizing members with
  | nil => exact h
  | cons member rest ih => exact ih (nodup_names_put h member.1 member.2)

/-- New members with distinct names are added at the end. -/
theorem putAll_eq_append {added : Members} (hnodup : added.names.Nodup)
    (hfresh : ∀ name ∈ added.names, name ∉ document.names) :
    putAll document added = document ++ added := by
  induction added generalizing document with
  | nil => exact (List.append_nil document).symm
  | cons member rest ih =>
    obtain ⟨fresh, hrest⟩ := List.nodup_cons.mp hnodup
    obtain ⟨hfirst, hlater⟩ := List.forall_mem_cons.mp hfresh
    rw [putAll_cons, put_of_not_mem hfirst, ih hrest, List.append_assoc, List.singleton_append]
    intro name mem hname
    rw [names, List.map_append] at hname
    rcases List.mem_append.mp hname with hname | hname
    · exact hlater name mem hname
    · obtain rfl : name = member.1 := List.mem_singleton.mp hname
      exact fresh mem

/-- What is written decides first. -/
theorem get?_putAll {added : Members} (hnodup : added.names.Nodup) (document : Members)
    (name : String) :
    (putAll document added).get? name = (added.get? name).or (document.get? name) := by
  cases hadded : added.get? name with
  | none =>
    have absent : ∀ member ∈ added, member.1 ≠ name := fun member mem =>
      Ne.symm (by simpa using List.lookup_eq_none_iff.mp hadded member mem)
    rw [get?_putAll_of_not_mem absent, Option.none_or]
  | some value =>
    have agree : ∀ first ∈ added, ∀ second ∈ added, first.1 = second.1 → first.2 = second.2 :=
      fun first hfirst second hsecond same =>
        congrArg Prod.snd (List.inj_on_of_nodup_map hnodup hfirst hsecond same)
    rw [get?_putAll_of_agree agree (mem_of_get? hadded), Option.some_or]

/-! ## Repeated writes -/

theorem names_put (members : Members) (name : String) (value : Json) :
    (members.put name value).names =
      if name ∈ members.names then members.names else members.names ++ [name] := by
  induction members with
  | nil => rfl
  | cons member rest ih =>
    obtain ⟨first, old⟩ := member
    unfold put
    split
    · next same => simp [names, same]
    · next different =>
      have head : ∀ tail : Members, names ((first, old) :: tail) = first :: names tail :=
        fun _ => rfl
      rw [head, head, ih]
      by_cases mem : name ∈ names rest
      · simp [mem]
      · simp [mem, Ne.symm different]

/-- Names keep their place, and new ones follow in the order of their first writes. -/
theorem names_putAll (document added : Members) :
    (putAll document added).names =
      document.names ++ (added.names.filter (· ∉ document.names)).eraseDups := by
  induction added generalizing document with
  | nil => exact (List.append_nil _).symm
  | cons member rest ih =>
    have head : names (member :: rest) = member.1 :: names rest := rfl
    rw [putAll_cons, ih, names_put, head]
    split
    · next known => rw [List.filter_cons_of_neg (by simpa using known)]
    · next new =>
      have later : (names rest).filter (· ∉ document.names ++ [member.1]) =
          ((names rest).filter (· ∉ document.names)).filter fun name => !name == member.1 := by
        rw [List.filter_filter]
        refine List.filter_congr fun name _ => ?_
        by_cases same : name = member.1 <;> simp [same]
      rw [List.filter_cons_of_pos (by simpa using new), List.eraseDups_cons, later,
        List.append_assoc, List.singleton_append]

/-- A name has the value of the last write to it. -/
theorem get?_putAll_eq (document added : Members) (name : String) :
    (putAll document added).get? name = (added.reverse.lookup name).or (document.get? name) := by
  induction added generalizing document with
  | nil => rfl
  | cons member rest ih =>
    obtain ⟨first, value⟩ := member
    have earlier : (document.put first value).get? name =
        (List.lookup name [(first, value)]).or (document.get? name) := by
      by_cases same : name = first
      · rw [same, get?_put_self, List.lookup_cons_self, Option.some_or]
      · rw [get?_put_of_ne same, List.lookup_cons, beq_eq_false_iff_ne.mpr same]
        rfl
    rw [putAll_cons, ih, earlier, List.reverse_cons, List.lookup_append, Option.or_assoc]

theorem ofList_eq_self (h : members.names.Nodup) : ofList members = members :=
  putAll_eq_append h fun _ _ => List.not_mem_nil

end Members

end SchemaDoc
