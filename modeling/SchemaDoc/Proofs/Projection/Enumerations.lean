import SchemaDoc.Proofs.Projection.Traversal

/-!
# How the search for an enumeration goes

The search takes the members of a union one by one. It ends without an enumeration at a member that
is no literal of the type found so far, and with an error at a number that JSON cannot write, but
only if it gets there.
-/
namespace SchemaDoc

theorem Number.equal_self (n : Number) : (Json.number n).equal (.number n) = true := by
  cases n with
  | integer n => exact beq_self_eq_true n
  | float x => simp [Json.equal, equal, Double.equal]

theorem Number.eq_of_ofDouble {d x : Double} (h : ofDouble d = .float x) : x = d := by
  simp only [ofDouble] at h
  split at h
  · split at h
    · cases h
    · cases h
      rfl
  · cases h
    rfl

/-- A number that stays a floating point number is not zero. -/
theorem Number.isZero_eq_false {d x : Double} (h : ofDouble d = .float x) : x.isZero = false := by
  obtain rfl := eq_of_ofDouble h
  by_contra zero
  have significand : x.significand = 0 := by simpa [Double.isZero] using zero
  have ratio : x.ratio.1 = 0 := by
    unfold Double.ratio
    split <;> simp [significand]
  have integral : x.toInt? = some 0 := by
    simp [Double.toInt?, ratio]
  rw [ofDouble, integral] at h
  cases h

theorem Number.ofDouble_eq_of_equal {d e : Double}
    (h : (Json.number (ofDouble d)).equal (.number (ofDouble e)) = true) :
    ofDouble d = ofDouble e := by
  replace h : (ofDouble d).equal (ofDouble e) = true := h
  cases hd : ofDouble d with
  | integer m =>
    cases he : ofDouble e with
    | integer n =>
      rw [hd, he] at h
      exact congrArg integer (beq_iff_eq.mp h)
    | float y =>
      rw [hd, he] at h
      cases h
  | float x =>
    cases he : ofDouble e with
    | integer n =>
      rw [hd, he] at h
      cases h
    | float y =>
      rw [hd, he] at h
      have same : (x == y || (x.isZero && y.isZero)) = true := h
      rw [isZero_eq_false hd, Bool.false_and, Bool.or_false] at same
      exact congrArg float (beq_iff_eq.mp same)

namespace Alternatives

variable {location : Location} {scalar : Option String} {values : List Json}
  {before after members : List (Option Literal)} {hole : Option Literal}

/-- All literals of a list have JSON values. -/
def Writable (members : List (Option Literal)) : Prop :=
  ∀ literal, some literal ∈ members → ∃ value, literal.toJson? = some value

/-- A member that is no literal, or a literal of another type than an earlier one, ends the search.
What comes after it is never looked at. -/
theorem literalValues_eq_none (writable : Writable before)
    (stops : ∀ literal, hole = some literal → (∃ type ∈ scalar, type ≠ literal.scalarType) ∨
      ∃ entry ∈ before, entry.map Literal.scalarType ≠ some literal.scalarType) :
    literalValues location scalar values (before ++ hole :: after) = .ok none := by
  induction before generalizing scalar values with
  | nil =>
    cases hole with
    | none => rfl
    | some literal =>
      obtain ⟨type, htype, different⟩ | ⟨entry, mem, -⟩ := stops literal rfl
      · obtain rfl : scalar = some type := htype
        simp [literalValues, different]
      · cases mem
  | cons entry rest ih =>
    cases entry with
    | none => rfl
    | some first =>
      obtain ⟨value, hvalue⟩ := writable first List.mem_cons_self
      rw [List.cons_append, literalValues]
      split
      · simp only [hvalue]
        refine ih (fun literal mem => writable literal (List.mem_cons_of_mem _ mem)) ?_
        intro literal hliteral
        by_cases same : first.scalarType = literal.scalarType
        · obtain ⟨type, htype, different⟩ | ⟨entry, mem, different⟩ := stops literal hliteral
          · next sameType =>
            obtain rfl : scalar = some type := htype
            have : type = first.scalarType := by simpa using sameType
            exact absurd (this.trans same) different
          · rcases List.mem_cons.mp mem with rfl | mem
            · exact absurd (congrArg some same) different
            · exact .inr ⟨entry, mem, different⟩
        · exact .inl ⟨first.scalarType, rfl, same⟩
      · rfl

/-- The search goes on after a number if it has found nothing but numbers. -/
theorem literalValues_cons_number (hscalar : ∀ type ∈ scalar, type = "number") (d : Double) :
    literalValues location scalar values (some (.number (.finite d)) :: members) =
      literalValues location (some "number")
        (if values.any (Json.equal (.number (.ofDouble d))) then values
          else values ++ [.number (.ofDouble d)]) members := by
  cases scalar with
  | none => rfl
  | some type =>
    obtain rfl := hscalar type rfl
    rfl

/-- After numbers only, the search gets to a number, and fails there if JSON cannot write it. -/
theorem literalValues_eq_nonFinite {x : Binary64} (hx : x.finite? = none)
    (numbers : ∀ entry ∈ before, ∃ d, entry = some (.number (.finite d)))
    (hscalar : ∀ type ∈ scalar, type = "number") :
    literalValues location scalar values (before ++ some (.number x) :: after) =
      .error (.nonFiniteLiteral location) := by
  induction before generalizing scalar values with
  | nil =>
    have same : scalar.all (· = Literal.scalarType (.number x)) = true := by
      cases scalar with
      | none => rfl
      | some type => exact decide_eq_true (hscalar type rfl)
    have none : (Literal.number x).toJson? = none := by rw [Literal.toJson?, hx]; rfl
    rw [List.nil_append, literalValues, if_pos same, none]
  | cons entry rest ih =>
    obtain ⟨⟨d, rfl⟩, hrest⟩ := List.forall_mem_cons.mp numbers
    rw [List.cons_append, literalValues_cons_number hscalar]
    exact ih hrest (by simp)

/-- Numbers alone make an enumeration, which has a value equal to each of them. -/
theorem literalValues_eq_numbers
    (numbers : ∀ entry ∈ members, ∃ d, entry = some (.number (.finite d)))
    (hscalar : ∀ type ∈ scalar, type = "number") (nonempty : members ≠ [] ∨ scalar = some "number") :
    ∃ found, (∀ location, literalValues location scalar values members =
        .ok (some ("number", found))) ∧ (∀ old ∈ values, old ∈ found) ∧
      ∀ d, some (.number (.finite d)) ∈ members →
        ∃ old ∈ found, (Json.number (.ofDouble d)).equal old = true := by
  induction members generalizing scalar values with
  | nil =>
    obtain rfl := nonempty.resolve_left fun h => h rfl
    exact ⟨values, fun _ => rfl, fun _ => id, fun _ mem => absurd mem List.not_mem_nil⟩
  | cons entry rest ih =>
    obtain ⟨⟨d, rfl⟩, hrest⟩ := List.forall_mem_cons.mp numbers
    simp only [literalValues_cons_number hscalar]
    generalize hvalues : (if values.any (Json.equal (.number (.ofDouble d))) then values
      else values ++ [.number (.ofDouble d)]) = values'
    have kept : ∀ old ∈ values, old ∈ values' := by
      intro old mem
      subst hvalues
      split
      · exact mem
      · exact List.mem_append_left _ mem
    have first : ∃ old ∈ values', (Json.number (.ofDouble d)).equal old = true := by
      subst hvalues
      split
      · next known => exact List.any_eq_true.mp known
      · exact ⟨_, List.mem_append_right _ (List.mem_singleton_self _), Number.equal_self _⟩
    obtain ⟨found, hfound, hold, heach⟩ := @ih (some "number") values' hrest (by simp) (.inr rfl)
    refine ⟨found, hfound, fun old mem => hold old (kept old mem), fun e mem => ?_⟩
    rcases List.mem_cons.mp mem with same | mem
    · cases same
      obtain ⟨old, mem, equal⟩ := first
      exact ⟨old, hold old mem, equal⟩
    · exact heach e mem

/-- The values of an enumeration are those of members. -/
theorem mem_of_literalValues {found : String × List Json}
    (h : literalValues location scalar values members = .ok (some found)) {value : Json}
    (mem : value ∈ found.2) :
    value ∈ values ∨ ∃ literal, some literal ∈ members ∧ literal.toJson? = some value := by
  induction members generalizing scalar values with
  | nil =>
    obtain ⟨_, rfl, rfl⟩ := Option.map_eq_some_iff.mp (Except.ok.inj h)
    exact .inl mem
  | cons member rest ih =>
    cases member with
    | none => cases h
    | some literal =>
      simp only [literalValues] at h
      split at h
      · split at h
        · cases h
        · next known hvalue =>
          rcases ih h with old | ⟨other, hother, hjson⟩
          · split at old
            · exact .inl old
            · rcases List.mem_append.mp old with old | new
              · exact .inl old
              · obtain rfl := List.mem_singleton.mp new
                exact .inr ⟨literal, List.mem_cons_self, hvalue⟩
          · exact .inr ⟨other, List.mem_cons_of_mem _ hother, hjson⟩
      · cases h

/-! ## Unions -/

theorem literalEnum_eq_none (writable : Writable before)
    (stops : ∀ literal, hole = some literal →
      ∃ entry ∈ before, entry.map Literal.scalarType ≠ some literal.scalarType) :
    literalEnum location (before ++ hole :: after) = .ok none := by
  unfold literalEnum
  split
  · rfl
  · rw [literalValues_eq_none writable fun literal h => .inr (stops literal h)]
    rfl

theorem literalEnum_eq_nonFinite {x : Binary64} (hx : x.finite? = none)
    (numbers : ∀ entry ∈ before, ∃ d, entry = some (.number (.finite d)))
    (several : 2 ≤ (before ++ some (.number x) :: after).length) :
    literalEnum location (before ++ some (.number x) :: after) =
      .error (.nonFiniteLiteral location) := by
  rw [literalEnum, if_neg (by omega), literalValues_eq_nonFinite hx numbers (by simp)]
  rfl

/-- Two or more numbers make an enumeration in which they all are. -/
theorem literalEnum_eq_numbers
    (numbers : ∀ entry ∈ members, ∃ d, entry = some (.number (.finite d)))
    (several : 2 ≤ members.length) :
    ∃ found, (∀ location, literalEnum location members = .ok (some (enumeration "number" found))) ∧
      ∀ d, some (.number (.finite d)) ∈ members → .number (.ofDouble d) ∈ found := by
  have nonempty : members ≠ [] := by
    rintro rfl
    simp at several
  obtain ⟨found, hfound, -, heach⟩ :=
    @literalValues_eq_numbers none [] members numbers (by simp) (.inl nonempty)
  refine ⟨found, fun location => ?_, fun d mem => ?_⟩
  · rw [literalEnum, if_neg (by omega), hfound]
    rfl
  · obtain ⟨old, hold, equal⟩ := heach d mem
    obtain ⟨literal, hliteral, hvalue⟩ :=
      (mem_of_literalValues (hfound []) hold).resolve_left List.not_mem_nil
    obtain ⟨e, same⟩ := numbers _ hliteral
    cases same
    cases hvalue
    rw [Number.ofDouble_eq_of_equal equal]
    exact hold

theorem exists_values_of_literalEnum {document : Members}
    (h : literalEnum location members = .ok (some document)) :
    ∃ scalar values, document = enumeration scalar values ∧ ∀ value ∈ values,
      ∃ literal, some literal ∈ members ∧ literal.toJson? = some value := by
  unfold literalEnum at h
  split at h
  · cases h
  · obtain ⟨found, hfound, h⟩ := bind_eq_ok.mp h
    cases found with
    | none => cases h
    | some found =>
      cases h
      refine ⟨found.1, found.2, rfl, fun value mem => ?_⟩
      exact (mem_of_literalValues hfound mem).resolve_left List.not_mem_nil

end Alternatives

end SchemaDoc
