import Mathlib.Data.List.Forall2

/-!
# Lists in step

Two lists are in step if their entries are related place by place. What is related may be told to
be in the lists as well, may be numbered, and may be mapped to the same values.
-/
namespace SchemaDoc

variable {α β γ δ : Type}

theorem forall₂_mem {R : α → β → Prop} {xs : List α} {ys : List β}
    (h : List.Forall₂ R xs ys) : List.Forall₂ (fun x y => x ∈ xs ∧ R x y) xs ys :=
  (List.forall₂_and_left xs ys).mpr ⟨fun _ mem => mem, h⟩

theorem forall₂_mem_both {R : α → β → Prop} {xs : List α} {ys : List β}
    (h : List.Forall₂ R xs ys) : List.Forall₂ (fun x y => (x ∈ xs ∧ R x y) ∧ y ∈ ys) xs ys :=
  ((List.forall₂_and_left ys xs).mpr ⟨fun _ mem => mem, (forall₂_mem h).flip⟩).flip.imp
    fun _ _ h => ⟨h.2, h.1⟩

/-- Each entry of the second list is in step with one of the first. -/
theorem exists_of_mem_right {R : α → β → Prop} {xs : List α} {ys : List β}
    (h : List.Forall₂ R xs ys) {y : β} (mem : y ∈ ys) : ∃ x ∈ xs, R x y := by
  induction h with
  | nil => cases mem
  | @cons x y' _ _ hfirst _ ih =>
    rcases List.mem_cons.mp mem with rfl | mem
    · exact ⟨x, List.mem_cons_self, hfirst⟩
    · obtain ⟨other, hother, hR⟩ := ih mem
      exact ⟨other, List.mem_cons_of_mem x hother, hR⟩

theorem forall₂_zipIdx {R : α → β → Prop} {xs : List α} {ys : List β}
    (h : List.Forall₂ R xs ys) (i : Nat) :
    List.Forall₂ (fun x pair => R x pair.1) xs (ys.zipIdx i) := by
  induction h generalizing i with
  | nil => exact .nil
  | cons hfirst _ ih => exact .cons hfirst (ih (i + 1))

theorem forall₂_zipIdx_both {R : α → β → Prop} {xs : List α} {ys : List β}
    (h : List.Forall₂ R xs ys) (i : Nat) :
    List.Forall₂ (fun x y => R x.1 y.1 ∧ y.2 = x.2) (xs.zipIdx i) (ys.zipIdx i) := by
  induction h generalizing i with
  | nil => exact .nil
  | cons hfirst _ ih => exact .cons ⟨hfirst, rfl⟩ (ih (i + 1))

theorem forall₂_of_zipIdx {R : α → β → Prop} {xs : List α} {ys : List β} {i : Nat}
    (h : List.Forall₂ (fun pair y => R pair.1 y) (xs.zipIdx i) ys) : List.Forall₂ R xs ys := by
  induction xs generalizing i ys with
  | nil =>
    cases h
    exact .nil
  | cons x rest ih =>
    rw [List.zipIdx_cons] at h
    cases h with
    | cons hfirst hrest => exact .cons hfirst (ih hrest)

theorem exists_forall₂ {R : α → β → Prop} {xs : List α} (h : ∀ x ∈ xs, ∃ y, R x y) :
    ∃ ys, List.Forall₂ R xs ys := by
  induction xs with
  | nil => exact ⟨[], .nil⟩
  | cons x rest ih =>
    obtain ⟨⟨y, hy⟩, hrest⟩ := List.forall_mem_cons.mp h
    obtain ⟨ys, hys⟩ := ih hrest
    exact ⟨y :: ys, .cons hy hys⟩

theorem exists_optionRel {R : α → β → Prop} {x? : Option α} (h : ∀ x, x? = some x → ∃ y, R x y) :
    ∃ y?, Option.Rel R x? y? := by
  cases x? with
  | none => exact ⟨none, .none⟩
  | some x =>
    obtain ⟨y, hy⟩ := h x rfl
    exact ⟨some y, .some hy⟩

theorem optionRel_imp {R S : α → β → Prop} (himp : ∀ x y, R x y → S x y) {x? : Option α}
    {y? : Option β} (h : Option.Rel R x? y?) : Option.Rel S x? y? := by
  cases h with
  | none => exact .none
  | some h => exact .some (himp _ _ h)

theorem eq_none_iff_of_optionRel {R : α → β → Prop} {x? : Option α} {y? : Option β}
    (h : Option.Rel R x? y?) : x? = none ↔ y? = none := by
  cases h <;> simp

theorem exists_of_optionRel_left {R : α → β → Prop} {x? : Option α} {y? : Option β}
    (h : Option.Rel R x? y?) {x : α} (hx : x? = some x) : ∃ y, y? = some y ∧ R x y := by
  subst hx
  cases h with
  | some hxy => exact ⟨_, rfl, hxy⟩

theorem optionRel_bind {R : α → β → Prop} {S : γ → δ → Prop} {x? : Option α} {y? : Option β}
    (h : Option.Rel R x? y?) {f : α → Option γ} {g : β → Option δ}
    (hnext : ∀ x y, R x y → Option.Rel S (f x) (g y)) : Option.Rel S (x?.bind f) (y?.bind g) := by
  cases h with
  | none => exact .none
  | some hxy => exact hnext _ _ hxy

theorem isSome_eq_of_optionRel {R : α → β → Prop} {x? : Option α} {y? : Option β}
    (h : Option.Rel R x? y?) : y?.isSome = x?.isSome := by
  cases h <;> rfl

/-- What holds of all entries of one list holds of all entries of the other. -/
theorem forall_mem_iff_of_forall₂ {R : α → β → Prop} {p : α → Prop} {q : β → Prop}
    (hR : ∀ x y, R x y → (p x ↔ q y)) {xs : List α} {ys : List β} (h : List.Forall₂ R xs ys) :
    (∀ x ∈ xs, p x) ↔ ∀ y ∈ ys, q y := by
  induction h with
  | nil => simp
  | cons hfirst _ ih => rw [List.forall_mem_cons, List.forall_mem_cons, hR _ _ hfirst, ih]

theorem pairwise_of_forall₂ {R : α → β → Prop} {S : α → α → Prop} {T : β → β → Prop}
    (hR : ∀ x y x' y', R x y → R x' y' → S x x' → T y y') {xs : List α} {ys : List β}
    (h : List.Forall₂ R xs ys) (pairs : xs.Pairwise S) : ys.Pairwise T := by
  induction h with
  | nil => exact .nil
  | @cons x y _ _ hfirst hrest ih =>
    obtain ⟨apart, hpairs⟩ := List.pairwise_cons.mp pairs
    refine List.pairwise_cons.mpr ⟨fun other mem => ?_, ih hpairs⟩
    obtain ⟨earlier, hearlier, hother⟩ := exists_of_mem_right hrest mem
    exact hR _ _ _ _ hfirst hother (apart earlier hearlier)

/-- Different entries stand in the relation one way or the other. -/
theorem pairwise_either {R : α → α → Prop} {xs : List α} (pairs : xs.Pairwise R) {x y : α}
    (hx : x ∈ xs) (hy : y ∈ xs) (different : x ≠ y) : R x y ∨ R y x := by
  induction pairs with
  | nil => cases hx
  | cons hfirst _ ih =>
    rcases List.mem_cons.mp hx with rfl | later
    · exact .inl (hfirst y ((List.mem_cons.mp hy).resolve_left (Ne.symm different)))
    · rcases List.mem_cons.mp hy with rfl | later'
      · exact .inr (hfirst x later)
      · exact ih later later'

theorem map_eq_of_forall₂ {R : α → β → Prop} {f : α → γ} {g : β → γ}
    (hR : ∀ x y, R x y → g y = f x) {xs : List α} {ys : List β} (h : List.Forall₂ R xs ys) :
    ys.map g = xs.map f := by
  induction h with
  | nil => rfl
  | cons hfirst _ ih => rw [List.map_cons, List.map_cons, hR _ _ hfirst, ih]

theorem forall₂_of_zip {R : α → β → Prop} {xs : List α} {ys : List β}
    (length : ys.length = xs.length) (each : ∀ pair ∈ xs.zip ys, R pair.1 pair.2) :
    List.Forall₂ R xs ys :=
  List.forall₂_iff_zip.mpr ⟨length.symm, fun mem => each _ mem⟩

theorem forall₂_of_zip_names {R : α × β → α × γ → Prop} {named : List (α × β)}
    {others : List (α × γ)} (names : others.map Prod.fst = named.map Prod.fst)
    (each : ∀ pair ∈ named.zip others, R pair.1 pair.2) :
    List.Forall₂ (fun entry other => other.1 = entry.1 ∧ R entry other) named others := by
  induction named generalizing others with
  | nil =>
    obtain rfl : others = [] := List.map_eq_nil_iff.mp names
    exact .nil
  | cons entry rest ih =>
    cases others with
    | nil => cases names
    | cons other rest' =>
      obtain ⟨hname, hnames⟩ := List.cons_eq_cons.mp names
      obtain ⟨hfirst, hrest⟩ := List.forall_mem_cons.mp each
      exact .cons ⟨hname, hfirst⟩ (ih hnames hrest)

theorem forall₂_zip_left {R : β → γ → Prop} {names : List α} {xs : List β} {ys : List γ}
    (short : xs.length ≤ names.length) (h : List.Forall₂ R xs ys) :
    List.Forall₂ (fun pair y => R pair.2 y) (names.zip xs) ys := by
  rwa [← List.forall₂_map_left_iff (f := Prod.snd) (R := R), List.map_snd_zip short]

theorem forall₂_filter {R : α → β → Prop} {p : α → Bool} {q : β → Bool}
    (hR : ∀ x y, R x y → q y = p x) {xs : List α} {ys : List β} (h : List.Forall₂ R xs ys) :
    List.Forall₂ R (xs.filter p) (ys.filter q) := by
  induction h with
  | nil => exact .nil
  | @cons x y _ _ hfirst _ ih =>
    rw [List.filter_cons, List.filter_cons, hR x y hfirst]
    split
    · exact .cons hfirst ih
    · exact ih

/-- Two lists that are in step with one list are in step with each other. -/
theorem forall₂_of_common {R : α → β → Prop} {S : α → γ → Prop} {xs : List α} {ys : List β}
    {zs : List γ} (hys : List.Forall₂ R xs ys) (hzs : List.Forall₂ S xs zs) :
    List.Forall₂ (fun y z => ∃ x ∈ xs, R x y ∧ S x z) ys zs := by
  induction hys generalizing zs with
  | nil =>
    cases hzs
    exact .nil
  | @cons x _ rest _ hfirst _ ih =>
    cases hzs with
    | cons hfirst' hrest' =>
      refine .cons ⟨x, List.mem_cons_self, hfirst, hfirst'⟩ ((ih hrest').imp ?_)
      rintro y z ⟨other, mem, h⟩
      exact ⟨other, List.mem_cons_of_mem x mem, h⟩

theorem forall₂_of_named {R : β → γ → Prop} {named : List (α × β)} {others : List (α × γ)}
    (names : others.map Prod.fst = named.map Prod.fst)
    (values : List.Forall₂ R (named.map Prod.snd) (others.map Prod.snd)) :
    List.Forall₂ (fun entry other => other.1 = entry.1 ∧ R entry.2 other.2) named others := by
  induction named generalizing others with
  | nil =>
    obtain rfl : others = [] := List.map_eq_nil_iff.mp names
    exact .nil
  | cons entry rest ih =>
    cases others with
    | nil => cases names
    | cons other rest' =>
      obtain ⟨hname, hnames⟩ := List.cons_eq_cons.mp names
      obtain ⟨hvalue, hvalues⟩ := List.forall₂_cons.mp values
      exact .cons ⟨hname, hvalue⟩ (ih hnames hvalues)

/-- Numbered by their names without repetition, entries of two lists in step that have one name
stand in one place. -/
theorem rel_of_same_name {R : α → β → Prop} {named : List (String × α)}
    {others : List (String × β)} (names : others.map Prod.fst = named.map Prod.fst)
    (values : List.Forall₂ R (named.map Prod.snd) (others.map Prod.snd))
    (nodup : (named.map Prod.fst).Nodup) {entry : String × α} (mem : entry ∈ named)
    {other : String × β} (hother : other ∈ others) (same : entry.1 = other.1) :
    R entry.2 other.2 := by
  induction named generalizing others with
  | nil => cases mem
  | cons first rest ih =>
    cases others with
    | nil => cases hother
    | cons first' rest' =>
      obtain ⟨hname, hnames⟩ := List.cons_eq_cons.mp names
      obtain ⟨hvalue, hvalues⟩ := List.forall₂_cons.mp values
      obtain ⟨fresh, hnodup⟩ := List.nodup_cons.mp nodup
      rcases List.mem_cons.mp mem with rfl | mem
      · rcases List.mem_cons.mp hother with rfl | hother
        · exact hvalue
        · exact absurd (same ▸ hnames ▸ List.mem_map_of_mem hother) fresh
      · rcases List.mem_cons.mp hother with rfl | hother
        · exact absurd (hname ▸ same ▸ List.mem_map_of_mem mem) fresh
        · exact ih hnames hvalues hnodup mem hother

end SchemaDoc
