import SchemaDoc.Proofs.Double.Integers
import SchemaDoc.Proofs.Double.Values

/-!
# Integers that are floating point numbers

An integer that is a floating point number is rounded to that number, and a number between the ends
of the signed integers of 64 bits is written as the integer it is.
-/
namespace SchemaDoc

/-- The bits of a product with a power of two are those of the other factor, and as many more. -/
theorem log2_mul_two_pow {n : Nat} (hn : n ≠ 0) (k : Nat) : (n * 2 ^ k).log2 = n.log2 + k := by
  induction k with
  | zero => rw [Nat.pow_zero, Nat.mul_one, Nat.add_zero]
  | succ k ih =>
    have twice : n * 2 ^ (k + 1) = 2 * (n * 2 ^ k) := by ring
    rw [twice, Nat.log2_two_mul (Nat.mul_ne_zero hn (Nat.two_pow_pos k).ne'), ih, Nat.add_assoc]

namespace Double

variable {x : Double} {n : Nat}

/-- A natural number other than zero is no subnormal number. -/
theorem normal_of_magnitude (hn : n ≠ 0) (h : x.magnitude = n) : 2 ^ 52 ≤ x.significand := by
  rcases x.canonical with ⟨bits, least⟩ | ⟨bits, -⟩
  · exfalso
    have multiple : x.significand = n * 2 ^ (-x.exponent).toNat := by
      have whole := magnitude_eq_natCast_iff.mp h
      rwa [ratio, if_neg (by omega)] at whole
    have large : 2 ^ 53 ≤ 2 ^ (-x.exponent).toNat :=
      Nat.pow_le_pow_right Nat.two_pos (by omega)
    have more := Nat.le_mul_of_pos_left (2 ^ (-x.exponent).toNat) (Nat.pos_of_ne_zero hn)
    have less : x.significand < 2 ^ 53 := bits
    omega
  · exact bits

theorem log2_significand (h : 2 ^ 52 ≤ x.significand) : x.significand.log2 = 52 :=
  (Nat.log2_eq_iff (by omega)).mpr ⟨h, x.significand_lt⟩

/-- Its exponent is the one that a natural number is rounded at. -/
theorem exponent_of_magnitude (hn : n ≠ 0) (h : x.magnitude = n) :
    x.exponent = (n.log2 : Int) - 52 := by
  have bits := log2_significand (normal_of_magnitude hn h)
  have nonzero : x.significand ≠ 0 := by
    intro zero
    rw [zero] at bits
    exact absurd bits (by decide)
  have multiple := magnitude_eq_natCast_iff.mp h
  unfold ratio at multiple
  split at multiple
  · next nonneg =>
    simp only [Nat.pow_eq, Nat.mul_one] at multiple
    have scaled := log2_mul_two_pow nonzero x.exponent.toNat
    rw [multiple, bits] at scaled
    omega
  · next negative =>
    simp only [Nat.pow_eq] at multiple
    have scaled := log2_mul_two_pow hn (-x.exponent).toNat
    rw [← multiple, bits] at scaled
    omega

/-- Scaled by the exponent, a natural number leaves the significand and no rest. -/
theorem scaledRatio_of_magnitude (h : x.magnitude = n) :
    (scaledRatio n 1 x.exponent).1 = x.significand * (scaledRatio n 1 x.exponent).2 := by
  have multiple := magnitude_eq_natCast_iff.mp h
  unfold ratio at multiple
  unfold scaledRatio
  split at multiple
  · next nonneg =>
    rw [if_pos nonneg]
    simpa using multiple.symm
  · next negative =>
    rw [if_neg negative]
    simpa using multiple.symm

theorem scaledRatio_pos (n : Nat) (exponent : Int) : 0 < (scaledRatio n 1 exponent).2 := by
  unfold scaledRatio
  split
  · exact Nat.mul_pos Nat.one_pos (Nat.pow_pos Nat.two_pos)
  · exact Nat.one_pos

theorem divHalfEven_mul {den : Nat} (pos : 0 < den) (num : Nat) :
    divHalfEven (num * den) den = num := by
  simp only [divHalfEven, Nat.mul_div_cancel num pos, Nat.mul_mod_left, Nat.mul_zero, if_pos pos]

/-- A natural number that is a floating point number is rounded to it. -/
theorem ofRatio?_of_magnitude (negative : Bool) (hn : n ≠ 0) (h : x.magnitude = n) :
    ofRatio? negative n 1 = some (x.withSign negative) := by
  have exponent : roundingExponent n 1 = x.exponent := by
    rw [roundingExponent_one hn, exponent_of_magnitude hn h]
  have significand : divHalfEven (scaledRatio n 1 x.exponent).1 (scaledRatio n 1 x.exponent).2 =
      x.significand := by
    rw [scaledRatio_of_magnitude h]
    exact divHalfEven_mul (scaledRatio_pos n x.exponent) x.significand
  have inside : x.significand ≠ Nat.pow 2 53 := x.significand_lt.ne
  simp only [ofRatio?, if_neg hn, exponent, significand, if_neg inside]
  rw [ofParts?, dif_pos x.canonical]
  rfl

/-- An integer that is a floating point number is rounded to a number of that value. -/
theorem exists_ofInt?_of_value {n : Int} (h : x.value = n) :
    ∃ y, ofInt? n = some y ∧ y.value = n := by
  by_cases hn : n = 0
  · subst hn
    exact ⟨zero false, rfl, by simp [value, zero, magnitude]⟩
  · have natural : x.magnitude = n.natAbs := by
      rw [← abs_value, h, Nat.cast_natAbs, Int.cast_abs]
    refine ⟨_, ofRatio?_of_magnitude (n < 0) (Int.natAbs_ne_zero.mpr hn) natural, ?_⟩
    have same : (x.withSign (n < 0)).magnitude = n.natAbs := natural
    rw [value, same, withSign]
    split
    · next negative =>
      have less : n < 0 := of_decide_eq_true negative
      rw [Nat.cast_natAbs, abs_of_neg less, Int.cast_neg, neg_neg]
    · next positive =>
      have notLess : ¬ n < 0 := fun less => positive (decide_eq_true less)
      rw [Nat.cast_natAbs, abs_of_nonneg (not_lt.mp notLess)]

end Double

/-- The integers of 64 bits that are floating point numbers. -/
structure Number.Exact (n : Int) : Prop where
  low : -2 ^ 63 ≤ n
  high : n < 2 ^ 63
  isDouble : ∃ x : Double, x.value = n

/-- What a number is written as after it was rounded. -/
theorem Number.Exact.literal {n : Int} (h : Exact n) :
    ∃ x : Double, (integer n).toBinary64 = .finite x ∧ ofDouble x = integer n := by
  obtain ⟨x, hx⟩ := h.isDouble
  obtain ⟨y, hy, value⟩ := Double.exists_ofInt?_of_value hx
  refine ⟨y, by rw [toBinary64, Binary64.ofInt, hy], ?_⟩
  have integral := Double.toInt?_eq_some_iff.mpr value
  rcases ofDouble_cases y with ⟨m, hm, -, -, written⟩ | ⟨outside, -⟩
  · rw [hm] at integral
    cases integral
    have high := h.high
    rw [written, min_eq_left (by omega)]
  · have bounds := outside n integral
    have low := h.low
    have high := h.high
    omega

end SchemaDoc
