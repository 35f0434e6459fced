import Mathlib.Data.List.Forall2

/-!
# Results of steps that may fail

Facts about chains and lists of steps with results in `Except`: when they fail and with which
error, and when they have the value that another procedure has.
-/
namespace SchemaDoc

variable {ε α β γ : Type}

/-- The step has an error instead of a value. -/
def Fails (result : Except ε α) : Prop := ∃ error, result = .error error

theorem not_fails_ok (a : α) : ¬ Fails (.ok a : Except ε α) := by
  rintro ⟨error, h⟩
  cases h

theorem fails_error (error : ε) : Fails (.error error : Except ε α) := ⟨error, rfl⟩

/-- A step that does not fail has a value. -/
theorem exists_ok_of_not_fails {result : Except ε α} (h : ¬ Fails result) :
    ∃ a, result = .ok a := by
  cases result with
  | error error => exact absurd (fails_error error) h
  | ok a => exact ⟨a, rfl⟩

theorem bind_eq_ok {result : Except ε α} {next : α → Except ε β} {b : β} :
    result >>= next = .ok b ↔ ∃ a, result = .ok a ∧ next a = .ok b := by
  cases result <;> simp [bind, Except.bind]

theorem bind_eq_error {result : Except ε α} {next : α → Except ε β} {error : ε} :
    result >>= next = .error error ↔
      result = .error error ∨ ∃ a, result = .ok a ∧ next a = .error error := by
  cases result <;> simp [bind, Except.bind]

theorem map_eq_ok {f : α → β} {result : Except ε α} {b : β} :
    result.map f = .ok b ↔ ∃ a, result = .ok a ∧ f a = b := by
  cases result <;> simp [Except.map]

theorem mapError_eq_ok {ε' : Type} {f : ε → ε'} {result : Except ε α} {a : α} :
    result.mapError f = .ok a ↔ result = .ok a := by
  cases result <;> simp [Except.mapError]

theorem pure_ne_error {a : α} {error : ε} : (pure a : Except ε α) ≠ .error error := by
  intro h
  cases h

theorem fails_bind_left {result : Except ε α} {next : α → Except ε β} (h : Fails result) :
    Fails (result >>= next) := by
  obtain ⟨error, rfl⟩ := h
  exact fails_error error

theorem fails_bind_right {result : Except ε α} {next : α → Except ε β}
    (h : ∀ a, Fails (next a)) : Fails (result >>= next) := by
  cases result with
  | error error => exact fails_error error
  | ok a => exact h a

/-! ## Lists of steps -/

/-- A list of steps has the error of the first of them that fails. -/
theorem mapM_append_cons_eq_error {f : α → Except ε β} {before after : List α} {x : α} {error : ε}
    (hbefore : ∀ y ∈ before, ∃ b, f y = .ok b) (hx : f x = .error error) :
    (before ++ x :: after).mapM f = .error error := by
  induction before with
  | nil => rw [List.nil_append, List.mapM_cons, hx]; rfl
  | cons y rest ih =>
    obtain ⟨⟨b, hb⟩, hrest⟩ := List.forall_mem_cons.mp hbefore
    rw [List.cons_append, List.mapM_cons, hb, ih hrest]
    rfl

/-- A list of steps has the error of the first step that fails, if there is one. -/
theorem mapM_eq_error_iff {f : α → Except ε β} {xs : List α} {error : ε} :
    xs.mapM f = .error error ↔ ∃ before x after, xs = before ++ x :: after ∧
      (∀ y ∈ before, ∃ b, f y = .ok b) ∧ f x = .error error := by
  constructor
  · intro h
    induction xs with
    | nil => exact absurd h pure_ne_error
    | cons x rest ih =>
      rw [List.mapM_cons] at h
      rcases bind_eq_error.mp h with hx | ⟨b, hb, h⟩
      · exact ⟨[], x, rest, rfl, List.forall_mem_nil _, hx⟩
      · rcases bind_eq_error.mp h with hrest | ⟨bs, -, h⟩
        · obtain ⟨before, y, after, rfl, hbefore, hy⟩ := ih hrest
          exact ⟨x :: before, y, after, rfl, List.forall_mem_cons.mpr ⟨⟨b, hb⟩, hbefore⟩, hy⟩
        · exact absurd h pure_ne_error
  · rintro ⟨before, x, after, rfl, hbefore, hx⟩
    exact mapM_append_cons_eq_error hbefore hx

/-- The error of a list of steps is that of one of them. -/
theorem mapM_eq_error {f : α → Except ε β} {xs : List α} {error : ε}
    (h : xs.mapM f = .error error) : ∃ x ∈ xs, f x = .error error := by
  obtain ⟨before, x, after, rfl, -, hx⟩ := mapM_eq_error_iff.mp h
  exact ⟨x, by simp, hx⟩

theorem exists_mapM_eq_ok_iff {f : α → Except ε β} {xs : List α} :
    (∃ ys, xs.mapM f = .ok ys) ↔ ∀ x ∈ xs, ∃ y, f x = .ok y := by
  induction xs with
  | nil => exact ⟨fun _ => List.forall_mem_nil _, fun _ => ⟨[], rfl⟩⟩
  | cons x rest ih =>
    rw [List.forall_mem_cons, ← ih]
    simp only [List.mapM_cons, bind_eq_ok]
    constructor
    · rintro ⟨_, y, hy, ys, hys, -⟩
      exact ⟨⟨y, hy⟩, ys, hys⟩
    · rintro ⟨⟨y, hy⟩, ys, hys⟩
      exact ⟨y :: ys, y, hy, ys, hys, rfl⟩

/-- A list of steps fails as soon as one of them does. -/
theorem fails_mapM {f : α → Except ε β} {xs : List α} {x : α} (hx : x ∈ xs)
    (h : Fails (f x)) : Fails (xs.mapM f) := by
  induction xs with
  | nil => cases hx
  | cons y rest ih =>
    rw [List.mapM_cons]
    rcases List.mem_cons.mp hx with rfl | hrest
    · exact fails_bind_left h
    · exact fails_bind_right fun b => fails_bind_left (ih hrest)

theorem optionMapM_eq_error {f : α → Except ε β} {x? : Option α} {error : ε}
    (h : x?.mapM f = .error error) : ∃ x, x? = some x ∧ f x = .error error := by
  cases x? with
  | none => exact absurd h pure_ne_error
  | some x =>
    refine ⟨x, rfl, ?_⟩
    cases hx : f x with
    | error other =>
      rw [Option.mapM_some, hx] at h
      cases h
      rfl
    | ok b =>
      rw [Option.mapM_some, hx] at h
      cases h

theorem fails_optionMapM {f : α → Except ε β} {x : α} (h : Fails (f x)) :
    Fails ((some x).mapM f) := by
  obtain ⟨error, hx⟩ := h
  exact ⟨error, by rw [Option.mapM_some, hx]; rfl⟩

/-- Where all steps of a list succeed, their values are in step with the list. -/
theorem forall₂_of_mapM_eq_ok {f : α → Except ε β} {xs : List α} {ys : List β}
    (h : xs.mapM f = .ok ys) : List.Forall₂ (fun x y => f x = .ok y) xs ys := by
  induction xs generalizing ys with
  | nil =>
    cases h
    exact .nil
  | cons x rest ih =>
    rw [List.mapM_cons] at h
    obtain ⟨y, hy, h⟩ := bind_eq_ok.mp h
    obtain ⟨others, hothers, h⟩ := bind_eq_ok.mp h
    cases h
    exact .cons hy (ih hothers)

theorem rel_of_optionMapM_eq_ok {f : α → Except ε β} {x? : Option α} {y? : Option β}
    (h : x?.mapM f = .ok y?) : Option.Rel (fun x y => f x = .ok y) x? y? := by
  cases x? with
  | none =>
    cases h
    exact .none
  | some x =>
    rw [Option.mapM_some] at h
    cases hx : f x with
    | error error =>
      rw [hx] at h
      cases h
    | ok y =>
      rw [hx] at h
      cases h
      exact .some hx

theorem mapM_eq_ok_of_forall₂ {f : α → Except ε β} {xs : List α} {ys : List β}
    (h : List.Forall₂ (fun x y => f x = .ok y) xs ys) : xs.mapM f = .ok ys := by
  induction h with
  | nil => rfl
  | cons hfirst _ ih => rw [List.mapM_cons, hfirst, ih]; rfl

theorem optionMapM_eq_ok_of_rel {f : α → Except ε β} {x? : Option α} {y? : Option β}
    (h : Option.Rel (fun x y => f x = .ok y) x? y?) : x?.mapM f = .ok y? := by
  cases h with
  | none => rfl
  | some h => rw [Option.mapM_some, h]; rfl

theorem mem_of_forall₂_ok {f : α → Except ε β} {xs : List α} {ys : List β}
    (h : List.Forall₂ (fun x y => f x = .ok y) xs ys) {x : α} (mem : x ∈ xs) {y : β}
    (hy : f x = .ok y) : y ∈ ys := by
  induction h with
  | nil => cases mem
  | cons hfirst _ ih =>
    rcases List.mem_cons.mp mem with rfl | later
    · rw [Except.ok.inj (hy.symm.trans hfirst)]
      exact List.mem_cons_self
    · exact List.mem_cons_of_mem _ (ih later)

theorem mapM_eq_of_forall₂ {f : α → Except ε γ} {g : β → Except ε γ} {xs : List α} {ys : List β}
    (h : List.Forall₂ (fun x y => g y = f x) xs ys) : ys.mapM g = xs.mapM f := by
  induction h with
  | nil => rfl
  | cons hfirst _ ih => rw [List.mapM_cons, List.mapM_cons, hfirst, ih]

theorem mapM_eq_pure_map {m : Type → Type} [Monad m] [LawfulMonad m] {f : α → m β} {g : α → β}
    {xs : List α} (h : ∀ x ∈ xs, f x = pure (g x)) : xs.mapM f = pure (xs.map g) := by
  induction xs with
  | nil => rfl
  | cons x rest ih =>
    obtain ⟨first, later⟩ := List.forall_mem_cons.mp h
    rw [List.mapM_cons, first, ih later, pure_bind, pure_bind, List.map_cons]

/-! ## Members with their proofs of membership -/

theorem mapM_attach {m : Type → Type} [Monad m] [LawfulMonad m] (f : α → m β) (xs : List α) :
    (xs.attach.mapM fun x => f x.1) = xs.mapM f := by
  rw [List.mapM_subtype (g := f) fun _ _ => rfl, List.unattach_attach]

theorem optionMapM_attach {m : Type → Type} [Monad m] (f : α → m β) (x? : Option α) :
    (x?.attach.mapM fun x => f x.1) = x?.mapM f := by
  cases x? <;> rfl

/-! ## Steps that succeed -/

/-- The step succeeds, with the value that another procedure has. -/
def Yields (result : Except ε α) (value : Option α) : Prop :=
  ∃ a, result = .ok a ∧ value = some a

theorem yields_ok (a : α) : Yields (.ok a : Except ε α) (some a) := ⟨a, rfl, rfl⟩

theorem Yields.bind {result : Except ε α} {value : Option α} {next : α → Except ε β}
    {next' : α → Option β} (h : Yields result value) (hnext : ∀ a, Yields (next a) (next' a)) :
    Yields (result >>= next) (value >>= next') := by
  obtain ⟨a, rfl, rfl⟩ := h
  exact hnext a

theorem yields_mapM {f : β → Except ε γ} {g : α → Option γ} {xs : List α} {ys : List β}
    (h : List.Forall₂ (fun x y => Yields (f y) (g x)) xs ys) :
    Yields (ys.mapM f) (xs.mapM g) := by
  induction h with
  | nil => exact yields_ok []
  | cons hfirst _ ih =>
    rw [List.mapM_cons, List.mapM_cons]
    exact hfirst.bind fun c => ih.bind fun cs => yields_ok (c :: cs)

/-! ## Steps with the same errors -/

/-- A chain of steps has an error exactly if another one has it. -/
def SameErrors (result : Except ε α) (other : Except ε β) : Prop :=
  ∀ error, result = .error error ↔ other = .error error

section

variable {δ : Type}

theorem sameErrors_ok (a : α) (b : β) : SameErrors (.ok a : Except ε α) (.ok b) :=
  fun _ => ⟨nofun, nofun⟩

theorem SameErrors.bind {result : Except ε α} {other : Except ε β} {next : α → Except ε γ}
    {next' : β → Except ε δ} (h : SameErrors result other)
    (hnext : ∀ a b, SameErrors (next a) (next' b)) :
    SameErrors (result >>= next) (other >>= next') := by
  cases result with
  | error error =>
    obtain rfl : other = .error error := (h error).mp rfl
    exact fun _ => by simp [Bind.bind, Except.bind]
  | ok a =>
    cases other with
    | error error => cases (h error).mpr rfl
    | ok b => exact hnext a b

theorem SameErrors.append_pure {result : Except ε α} {other : Except ε β}
    (h : SameErrors result other) (f : β → γ) :
    SameErrors result (other >>= fun b => pure (f b)) := by
  intro error
  rw [h error]
  cases other <;> simp [Bind.bind, Except.bind, pure, Except.pure]

theorem SameErrors.exists_ok_iff {result : Except ε α} {other : Except ε β}
    (h : SameErrors result other) : (∃ a, result = .ok a) ↔ ∃ b, other = .ok b := by
  cases result with
  | error error => simp [(h error).mp rfl]
  | ok a =>
    cases other with
    | error error => cases (h error).mpr rfl
    | ok b => simp

end

end SchemaDoc
