import SchemaDoc.Proofs.Projection.Congruence

/-!
# How documents of unions and tuples are put together

A union is the list of its different documents, unless there is only one of them. All forms of
tuples are laid out in one way, with items, bounds on their number and a schema of further ones.
-/
namespace SchemaDoc

namespace Alternatives

/-! ## Different documents -/

theorem distinct_sublist (seen : List String) (documents : List Members) :
    (distinct seen documents).Sublist documents := by
  induction documents generalizing seen with
  | nil => exact .slnil
  | cons document rest ih =>
    simp only [distinct]
    split
    · exact (ih seen).cons document
    · exact (ih _).cons_cons document

theorem key_not_mem_of_mem_distinct {seen : List String} {documents : List Members}
    {document : Members} (h : document ∈ distinct seen documents) :
    (Json.object document).key ∉ seen := by
  induction documents generalizing seen with
  | nil => cases h
  | cons first rest ih =>
    simp only [distinct] at h
    split at h
    · exact ih h
    · next fresh =>
      rcases List.mem_cons.mp h with rfl | h
      · exact fresh
      · exact fun mem => ih h (List.mem_cons_of_mem _ mem)

theorem pairwise_distinct (seen : List String) (documents : List Members) :
    (distinct seen documents).Pairwise fun document later =>
      (Json.object document).key ≠ (Json.object later).key := by
  induction documents generalizing seen with
  | nil => exact .nil
  | cons document rest ih =>
    simp only [distinct]
    split
    · exact ih seen
    · refine List.pairwise_cons.mpr ⟨fun later mem same => ?_, ih _⟩
      exact key_not_mem_of_mem_distinct mem (same ▸ List.mem_cons_self)

/-- Of documents with one key, one is kept. -/
theorem exists_key_of_mem {seen : List String} {documents : List Members} {document : Members}
    (mem : document ∈ documents) (fresh : (Json.object document).key ∉ seen) :
    ∃ kept ∈ distinct seen documents, (Json.object kept).key = (Json.object document).key := by
  induction documents generalizing seen with
  | nil => cases mem
  | cons first rest ih =>
    simp only [distinct]
    rcases List.mem_cons.mp mem with rfl | mem
    · rw [if_neg fresh]
      exact ⟨document, List.mem_cons_self, rfl⟩
    · split
      · exact ih mem fresh
      · by_cases same : (Json.object document).key = (Json.object first).key
        · exact ⟨first, List.mem_cons_self, same.symm⟩
        · obtain ⟨kept, hkept, hkey⟩ := ih mem (List.not_mem_cons_of_ne_of_not_mem same fresh)
          exact ⟨kept, List.mem_cons_of_mem _ hkept, hkey⟩

theorem distinct_ne_nil {documents : List Members} (h : documents ≠ []) :
    distinct [] documents ≠ [] := by
  cases documents with
  | nil => exact absurd rfl h
  | cons document rest => simp [distinct]

/-- A document unlike all earlier ones stands after what is kept of them. -/
theorem distinct_append_cons {seen : List String} {documents : List Members} {document : Members}
    (fresh : (Json.object document).key ∉ seen)
    (unlike : ∀ earlier ∈ documents, (Json.object document).key ≠ (Json.object earlier).key)
    (later : List Members) : ∃ kept, kept.Sublist later ∧
      distinct seen (documents ++ document :: later) =
        distinct seen documents ++ document :: kept := by
  induction documents generalizing seen with
  | nil =>
    refine ⟨distinct ((Json.object document).key :: seen) later, distinct_sublist _ _, ?_⟩
    simp [distinct, fresh]
  | cons first rest ih =>
    obtain ⟨hfirst, hrest⟩ := List.forall_mem_cons.mp unlike
    rw [List.cons_append]
    simp only [distinct]
    split
    · exact ih fresh hrest
    · obtain ⟨kept, sublist, same⟩ := ih (List.not_mem_cons_of_ne_of_not_mem hfirst fresh) hrest
      exact ⟨kept, sublist, by rw [same, List.cons_append]⟩

theorem distinct_eq_self {seen : List String} {documents : List Members}
    (fresh : ∀ document ∈ documents, (Json.object document).key ∉ seen)
    (different : documents.Pairwise fun document later =>
      (Json.object document).key ≠ (Json.object later).key) :
    distinct seen documents = documents := by
  induction documents generalizing seen with
  | nil => rfl
  | cons document rest ih =>
    obtain ⟨hdocument, hrest⟩ := List.forall_mem_cons.mp fresh
    obtain ⟨hunlike, hdifferent⟩ := List.pairwise_cons.mp different
    have later : ∀ other ∈ rest, (Json.object other).key ∉ (Json.object document).key :: seen :=
      fun other mem => List.not_mem_cons_of_ne_of_not_mem (hunlike other mem).symm (hrest other mem)
    simp [distinct, hdocument, ih later hdifferent]

/-- As many documents are kept as there are exactly if all keys differ. -/
theorem length_distinct_eq_iff (documents : List Members) :
    (distinct [] documents).length = documents.length ↔
      documents.Pairwise fun document later =>
        (Json.object document).key ≠ (Json.object later).key := by
  constructor
  · intro length
    have same : distinct [] documents = documents := (distinct_sublist [] documents).eq_of_length length
    exact same ▸ pairwise_distinct [] documents
  · intro different
    rw [distinct_eq_self (fun _ _ => List.not_mem_nil) different]

/-- Of documents with different keys, more than one is kept. -/
theorem two_le_length_distinct {documents : List Members} {one two : Members}
    (hone : one ∈ documents) (htwo : two ∈ documents)
    (unlike : (Json.object one).key ≠ (Json.object two).key) :
    2 ≤ (distinct [] documents).length := by
  obtain ⟨kept, hkept, same⟩ := exists_key_of_mem hone List.not_mem_nil
  obtain ⟨kept', hkept', same'⟩ := exists_key_of_mem htwo List.not_mem_nil
  by_contra few
  obtain ⟨only, single⟩ : ∃ only, distinct [] documents = [only] := by
    apply List.length_eq_one_iff.mp
    have some := List.length_pos_of_mem hkept
    omega
  rw [single] at hkept hkept'
  obtain rfl := List.mem_singleton.mp hkept
  obtain rfl := List.mem_singleton.mp hkept'
  exact unlike (same.symm.trans same')

/-- If more than one document is kept, each of them has another key than one of the others. -/
theorem exists_unlike {documents : List Members} (several : 2 ≤ (distinct [] documents).length)
    {document : Members} (mem : document ∈ distinct [] documents) :
    ∃ other ∈ distinct [] documents, (Json.object document).key ≠ (Json.object other).key := by
  have different := pairwise_distinct [] documents
  generalize distinct [] documents = kept at several mem different ⊢
  match kept with
  | first :: second :: rest =>
    by_cases same : (Json.object document).key = (Json.object first).key
    · have apart := List.rel_of_pairwise_cons different List.mem_cons_self
      exact ⟨second, by simp, same ▸ apart⟩
    · exact ⟨first, List.mem_cons_self, same⟩

theorem join_cases {documents : List Members} (nonempty : documents ≠ []) :
    (∃ only, distinct [] documents = [only] ∧ join documents = only) ∨
      (2 ≤ (distinct [] documents).length ∧ join documents = listed (distinct [] documents)) := by
  have some := distinct_ne_nil nonempty
  unfold join
  split
  · next only => exact .inl ⟨only, rfl, rfl⟩
  · generalize distinct [] documents = left at some ⊢
    match left with
    | [] => exact absurd rfl some
    | [only] => exact .inl ⟨only, rfl, rfl⟩
    | first :: second :: rest => exact .inr ⟨by simp, rfl⟩

/-- With a document unlike all others, the different documents are listed. -/
theorem join_append_cons {earlier later : List Members} {document : Members}
    (unlike : ∀ other ∈ earlier ++ later, (Json.object document).key ≠ (Json.object other).key)
    (several : earlier ++ later ≠ []) : ∃ kept, kept.Sublist later ∧
      join (earlier ++ document :: later) = listed (distinct [] earlier ++ document :: kept) := by
  obtain ⟨kept, sublist, same⟩ := distinct_append_cons List.not_mem_nil
    (fun other mem => unlike other (List.mem_append_left _ mem)) later
  obtain ⟨other, hother⟩ := List.exists_mem_of_ne_nil _ several
  have here : document ∈ earlier ++ document :: later :=
    List.mem_append_right _ List.mem_cons_self
  have there : other ∈ earlier ++ document :: later :=
    List.perm_middle.mem_iff.mpr (List.mem_cons_of_mem _ hother)
  have more := two_le_length_distinct here there (unlike other hother)
  rcases join_cases (List.ne_nil_of_mem here) with ⟨only, honly, -⟩ | ⟨-, hjoin⟩
  · rw [honly, List.length_singleton] at more
    omega
  · exact ⟨kept, sublist, hjoin.trans (congrArg listed same)⟩

end Alternatives

/-- A member that does not stand for nothing counts among the others whatever it is. -/
theorem Projection.exists_filter_counts (inField : Bool) (before after : List Schema) :
    ∃ earlier later, (∀ member ∈ earlier ++ later, member ∈ before ++ after) ∧
      ∀ inner : Schema, inner.isVoid = false →
        (before ++ inner :: after).filter (counts inField (before ++ inner :: after)) =
          earlier ++ inner :: later := by
  refine ⟨before.filter fun member => !(inField && member.isVoid),
    after.filter fun member => !(inField && member.isVoid), fun member mem => ?_,
    fun inner occupied => ?_⟩
  · rw [← List.filter_append] at mem
    exact (List.mem_filter.mp mem).1
  · have counted : counts inField (before ++ inner :: after) =
        fun member => !(inField && member.isVoid) := by
      funext member
      have others : (before ++ inner :: after).any (fun other => !other.isVoid) = true := by
        simp [occupied]
      rw [counts, others, Bool.and_true]
    rw [counted, List.filter_append, List.filter_cons, occupied, Bool.and_false]
    rfl

theorem Projection.filter_counts_ne_nil (inField : Bool) {members : List Schema}
    (h : members ≠ []) : members.filter (counts inField members) ≠ [] := by
  rw [filter_counts]
  simp only [Alternatives.present]
  split
  · next others =>
    intro none
    rw [none] at others
    simp at others
  · exact h

/-! ## Tuples -/

namespace Sequence

/-- An array document with bounds on the number of items and a schema of further ones. -/
def laid (documents : List Members) (least most : Option Nat) (rest : Option Members) : Members :=
  [("type", .string "array"), ("items", itemsOf documents)] ++
    (Members.ofOption "minItems" (least.map Json.ofNat) ++
      (Members.ofOption "maxItems" (most.map Json.ofNat) ++
        Members.ofOption "additionalItems" (rest.map Json.object)))

variable {documents : List Members} {least most : Option Nat} {rest : Option Members}

@[simp] theorem items_laid : (laid documents least most rest).get? "items" = some (itemsOf documents) := rfl

theorem minItems_laid : (laid documents least most rest).get? "minItems" = least.map .ofNat := by
  cases least <;> cases most <;> cases rest <;> rfl

theorem maxItems_laid : (laid documents least most rest).get? "maxItems" = most.map .ofNat := by
  cases least <;> cases most <;> cases rest <;> rfl

theorem additionalItems_laid :
    (laid documents least most rest).get? "additionalItems" = rest.map .object := by
  cases least <;> cases most <;> cases rest <;> rfl

theorem absent_laid {name : String}
    (h : name ∈ ["oneOf", "enum", "properties", "additionalProperties"]) :
    (laid documents least most rest).get? name = none := by
  simp only [List.mem_cons, List.not_mem_nil, or_false] at h
  rcases h with rfl | rfl | rfl | rfl <;> cases least <;> cases most <;> cases rest <;> rfl

theorem itemsOf_cases (documents : List Members) :
    (∃ only, documents = [only] ∧ itemsOf documents = .object only) ∨
      (documents.length ≠ 1 ∧ itemsOf documents = .array (documents.map Json.object)) := by
  unfold itemsOf
  split
  · next only => exact .inl ⟨only, rfl, rfl⟩
  · next several =>
    refine .inr ⟨fun single => ?_, rfl⟩
    obtain ⟨only, rfl⟩ := List.length_eq_one_iff.mp single
    exact several only rfl

theorem requiredCount_le (elements : List (Element Schema)) :
    requiredCount elements ≤ elements.length :=
  List.length_filter_le _ _

theorem exists_of_isNonEmptyList {σ : Type} {elements : List (Element σ)}
    (h : isNonEmptyList elements documents rest = true) : ∃ only, documents = [only] := by
  unfold isNonEmptyList at h
  split at h
  · exact ⟨_, rfl⟩
  · cases h

theorem document_cases {σ : Type} (elements : List (Element σ)) (documents : List Members)
    (rest : Option Members) :
    (∃ others, elements = [] ∧ rest = some others ∧
      document elements documents rest = laid [others] none none none) ∨
    (isNonEmptyList elements documents rest = true ∧
      document elements documents rest = laid documents (some 1) none none) ∨
    (∃ others, elements ≠ [] ∧ rest = some others ∧
      isNonEmptyList elements documents rest = false ∧ document elements documents rest =
        laid documents (some (requiredCount elements)) none (some others)) ∨
    (rest = none ∧ document elements documents rest =
      laid documents (some (requiredCount elements)) (some documents.length) none) := by
  unfold document
  split
  · next others => exact .inl ⟨others, rfl, rfl, rfl⟩
  · next notList =>
    split
    · next single => exact .inr (.inl ⟨single, rfl⟩)
    · next several =>
      cases rest with
      | some others =>
        refine .inr (.inr (.inl ⟨others, fun empty => notList others empty rfl, rfl, ?_, rfl⟩))
        exact Bool.not_eq_true _ ▸ several
      | none => exact .inr (.inr (.inr ⟨rfl, rfl⟩))

theorem exists_laid {σ : Type} (elements : List (Element σ)) (documents : List Members)
    (rest : Option Members) : ∃ items least most further,
      document elements documents rest = laid items least most further := by
  rcases document_cases elements documents rest with ⟨_, -, -, same⟩ | ⟨-, same⟩ |
    ⟨_, -, -, -, same⟩ | ⟨-, same⟩
  · exact ⟨_, _, _, _, same⟩
  · exact ⟨_, _, _, _, same⟩
  · exact ⟨_, _, _, _, same⟩
  · exact ⟨_, _, _, _, same⟩

/-- However a tuple of elements is laid out, its items are their documents. -/
theorem exists_laid_of_ne_nil {σ : Type} {elements : List (Element σ)} (nonempty : elements ≠ [])
    (documents : List Members) (rest : Option Members) : ∃ least most further,
      document elements documents rest = laid documents least most further := by
  rcases document_cases elements documents rest with ⟨_, empty, -⟩ | ⟨-, same⟩ |
    ⟨_, -, -, -, same⟩ | ⟨-, same⟩
  · exact absurd empty nonempty
  · exact ⟨_, _, _, same⟩
  · exact ⟨_, _, _, same⟩
  · exact ⟨_, _, _, same⟩

theorem isNonEmptyList_eq_false {σ : Type} {elements : List (Element σ)} {further : Members}
    (unlike : ∀ document ∈ documents, (Json.object further).key ≠ (Json.object document).key) :
    isNonEmptyList elements documents (some further) = false := by
  unfold isNonEmptyList
  split
  · next same =>
    cases same
    simp [(unlike _ (List.mem_singleton_self _)).symm]
  · rfl

/-- The schema of further items stands alone if there are no elements, and beside them otherwise,
unless it says the same as a single one. -/
theorem get?_rest_of_unlike {σ : Type} {elements : List (Element σ)} {further : Members}
    (unlike : ∀ document ∈ documents, (Json.object further).key ≠ (Json.object document).key) :
    (document elements documents (some further)).get?
      (if elements.isEmpty then "items" else "additionalItems") = some (.object further) := by
  rcases document_cases elements documents (some further) with ⟨_, rfl, same, laid⟩ | ⟨list, -⟩ |
    ⟨_, nonempty, same, -, laid⟩ | ⟨none, -⟩
  · cases same
    rw [laid]
    rfl
  · rw [isNonEmptyList_eq_false unlike] at list
    cases list
  · cases same
    rw [laid, if_neg (by simpa using nonempty)]
    exact additionalItems_laid
  · cases none

end Sequence

end SchemaDoc
