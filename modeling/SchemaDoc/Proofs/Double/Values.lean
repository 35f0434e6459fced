import SchemaDoc.Proofs.Double.Text
import SchemaDoc.Proofs.Projection.Enumerations

/-!
# The numbers that floating point numbers stand for

Two floating point numbers stand for the same rational number only if they are equal, the two zeros
included. The same holds of the JSON numbers they are written as. An integral number is written as
an integer if it fits, and at the one end of the range where it is moved by one it meets no other
number.
-/
namespace SchemaDoc

namespace Double

variable {x y : Double}

/-- The rational number. -/
def value (x : Double) : ℚ := if x.negative then -x.magnitude else x.magnitude

theorem magnitude_pos (h : x.significand ≠ 0) : 0 < x.magnitude :=
  (roundsTo_magnitude h).pos h

theorem magnitude_of_zero (h : x.significand = 0) : x.magnitude = 0 := by
  rw [magnitude, h, Nat.cast_zero, zero_mul]

theorem abs_value (x : Double) : |x.value| = x.magnitude := by
  have nonneg : 0 ≤ x.magnitude := by
    unfold magnitude
    positivity
  unfold value
  split
  · rw [abs_neg, abs_of_nonneg nonneg]
  · exact abs_of_nonneg nonneg

/-- Numbers that are not zero stand for different rational numbers unless they are the same. -/
theorem eq_of_value_eq (h : x.value = y.value) (nonzero : x.significand ≠ 0) : x = y := by
  have magnitudes : x.magnitude = y.magnitude := by rw [← abs_value, ← abs_value, h]
  have pos := magnitude_pos nonzero
  have nonzero' : y.significand ≠ 0 := by
    intro zero
    rw [magnitudes, magnitude_of_zero zero] at pos
    exact lt_irrefl 0 pos
  have signs : x.negative = y.negative := by
    cases hx : x.negative <;> cases hy : y.negative <;>
      simp only [value, hx, hy, if_true, Bool.false_eq_true, if_false] at h
    · rfl
    · linarith
    · linarith
    · rfl
  obtain ⟨significand, exponent⟩ :=
    eq_of_roundsTo (roundsTo_magnitude nonzero) (magnitudes ▸ roundsTo_magnitude nonzero')
  cases x
  cases y
  simp_all

/-! ## Integral numbers -/

theorem ratio_pos (x : Double) : 0 < x.ratio.2 := by
  unfold ratio
  split
  · exact Nat.one_pos
  · exact Nat.pow_pos Nat.two_pos

theorem magnitude_eq_ratio (x : Double) : x.magnitude = x.ratio.1 / x.ratio.2 := by
  unfold magnitude ratio
  split
  · next nonneg =>
    rw [Nat.cast_one, div_one, Nat.pow_eq, Nat.cast_mul, Nat.cast_pow, ← zpow_natCast,
      Int.toNat_of_nonneg nonneg, Nat.cast_two]
  · next negative =>
    have exponent : x.exponent = -((-x.exponent).toNat : ℤ) := by omega
    rw [Nat.pow_eq, Nat.cast_pow, ← zpow_natCast, Nat.cast_two, div_eq_mul_inv, ← zpow_neg,
      ← exponent]

/-- The magnitude is a natural number if the ratio has no rest. -/
theorem magnitude_eq_natCast_iff {n : Nat} : x.magnitude = n ↔ x.ratio.1 = n * x.ratio.2 := by
  have pos : (x.ratio.2 : ℚ) ≠ 0 := by exact_mod_cast x.ratio_pos.ne'
  rw [magnitude_eq_ratio, div_eq_iff pos]
  exact_mod_cast Iff.rfl

theorem toInt?_eq_some_iff {n : Int} : x.toInt? = some n ↔ x.value = n := by
  have quotient : x.ratio.1 % x.ratio.2 = 0 → x.magnitude = (x.ratio.1 / x.ratio.2 : Nat) := by
    intro rest
    exact magnitude_eq_natCast_iff.mpr (Nat.div_mul_cancel (Nat.dvd_of_mod_eq_zero rest)).symm
  unfold toInt? value
  constructor
  · intro h
    split at h
    · next rest =>
      cases h
      rw [quotient rest]
      cases x.negative <;>
        simp only [Bool.false_eq_true, if_false, if_true, Int.cast_neg, Int.cast_natCast]
    · cases h
  · intro h
    have natural : x.magnitude = n.natAbs := by
      rw [← abs_value, value, h, Nat.cast_natAbs, Int.cast_abs]
    have multiple := magnitude_eq_natCast_iff.mp natural
    rw [if_pos (by rw [multiple, Nat.mul_mod_left]), multiple, Nat.mul_div_cancel _ x.ratio_pos]
    rw [natural] at h
    rw [Option.some.injEq]
    apply Int.cast_injective (α := ℚ)
    rw [← h]
    cases x.negative <;>
      simp only [Bool.false_eq_true, if_false, if_true, Int.cast_neg, Int.cast_natCast]

/-- The greatest integer of 64 bits is not a floating point number. -/
theorem toInt?_ne_max (x : Double) : x.toInt? ≠ some (2 ^ 63 - 1) := by
  intro h
  have natural : x.magnitude = (2 ^ 63 - 1 : Nat) := by
    rw [← abs_value, toInt?_eq_some_iff.mp h]
    norm_num
  have multiple := magnitude_eq_natCast_iff.mp natural
  have small := x.significand_lt
  unfold ratio at multiple
  split at multiple
  · cases bits : x.exponent.toNat with
    | zero =>
      rw [bits] at multiple
      simp at multiple
      omega
    | succ k =>
      rw [bits, Nat.pow_eq, Nat.pow_succ, ← Nat.mul_assoc] at multiple
      omega
  · have pos : 0 < Nat.pow 2 (-x.exponent).toNat := Nat.pow_pos Nat.two_pos
    dsimp only at multiple
    generalize Nat.pow 2 (-x.exponent).toNat = places at multiple pos
    have large := Nat.le_mul_of_pos_right (2 ^ 63 - 1) pos
    omega

end Double

namespace Number

variable {x y : Double}

/-- The rational number. -/
def value : Number → ℚ
  | integer n => n
  | float x => x.value

/-- How a floating point number is written. -/
theorem ofDouble_cases (x : Double) :
    (∃ n : Int, x.toInt? = some n ∧ -2 ^ 63 ≤ n ∧ n ≤ 2 ^ 63 ∧
      ofDouble x = integer (min n (2 ^ 63 - 1))) ∨
    ((∀ n : Int, x.toInt? = some n → n < -2 ^ 63 ∨ 2 ^ 63 < n) ∧ ofDouble x = float x) := by
  unfold ofDouble
  split
  · next n integral =>
    simp only [Nat.pow_eq, Nat.cast_pow, Nat.cast_ofNat]
    split
    · next fits => exact .inl ⟨n, integral, fits.1, fits.2, rfl⟩
    · next tooLarge =>
      refine .inr ⟨fun m same => ?_, rfl⟩
      rw [integral] at same
      cases same
      omega
  · next fractional =>
    refine .inr ⟨fun n same => ?_, rfl⟩
    rw [fractional] at same
    cases same

/-- Numbers are written in the same way exactly if they stand for the same rational number. -/
theorem ofDouble_eq_iff : ofDouble x = ofDouble y ↔ x.value = y.value := by
  constructor
  · intro h
    rcases ofDouble_cases x with ⟨m, hm, _, _, hx⟩ | ⟨-, hx⟩
    · rcases ofDouble_cases y with ⟨n, hn, _, _, hy⟩ | ⟨-, hy⟩
      · rw [hx, hy] at h
        have written := integer.inj h
        have notMax : m ≠ 2 ^ 63 - 1 := fun max => x.toInt?_ne_max (max ▸ hm)
        have notMax' : n ≠ 2 ^ 63 - 1 := fun max => y.toInt?_ne_max (max ▸ hn)
        have same : m = n := by omega
        rw [Double.toInt?_eq_some_iff.mp hm, Double.toInt?_eq_some_iff.mp hn, same]
      · rw [hx, hy] at h
        cases h
    · rcases ofDouble_cases y with ⟨n, _, _, _, hy⟩ | ⟨-, hy⟩
      · rw [hx, hy] at h
        cases h
      · rw [hx, hy] at h
        rw [float.inj h]
  · intro h
    have integral : ∀ n : Int, x.toInt? = some n ↔ y.toInt? = some n := by
      intro n
      rw [Double.toInt?_eq_some_iff, Double.toInt?_eq_some_iff, h]
    rcases ofDouble_cases x with ⟨m, hm, low, high, hx⟩ | ⟨large, hx⟩
    · rcases ofDouble_cases y with ⟨n, hn, _, _, hy⟩ | ⟨large, -⟩
      · rw [(integral m).mp hm] at hn
        cases hn
        rw [hx, hy]
      · have outside := large m ((integral m).mp hm)
        omega
    · rcases ofDouble_cases y with ⟨n, hn, low, high, -⟩ | ⟨-, hy⟩
      · have outside := large n ((integral n).mpr hn)
        omega
      · have nonzero : x.significand ≠ 0 := by
          intro zero
          have zeroValue : x.value = (0 : Int) := by
            simp [Double.value, Double.magnitude_of_zero zero]
          have outside := large 0 (Double.toInt?_eq_some_iff.mpr zeroValue)
          omega
        rw [hx, hy, Double.eq_of_value_eq h nonzero]

/-- What is written stands for different rational numbers unless it is the same. -/
theorem eq_of_value_ofDouble (h : (ofDouble x).value = (ofDouble y).value) :
    ofDouble x = ofDouble y := by
  have mixed : ∀ {y : Double} {n : Int}, -2 ^ 63 ≤ n → n ≤ 2 ^ 63 →
      (∀ m : Int, y.toInt? = some m → m < -2 ^ 63 ∨ 2 ^ 63 < m) →
      y.value ≠ ((min n (2 ^ 63 - 1) : Int) : ℚ) := by
    intro y n low high large same
    have outside := large _ (Double.toInt?_eq_some_iff.mpr same)
    omega
  rcases ofDouble_cases x with ⟨m, -, low, high, hx⟩ | ⟨large, hx⟩
  · rcases ofDouble_cases y with ⟨n, -, _, _, hy⟩ | ⟨large, hy⟩
    · rw [hx, hy] at h ⊢
      exact congrArg integer (Int.cast_injective h)
    · rw [hx, hy] at h
      exact absurd h.symm (mixed low high large)
  · rcases ofDouble_cases y with ⟨n, -, low, high, hy⟩ | ⟨-, hy⟩
    · rw [hx, hy] at h
      exact absurd h (mixed low high large)
    · rw [hx, hy] at h
      exact ofDouble_eq_iff.mpr h

end Number

end SchemaDoc
