import Mathlib.Tactic.Ring
import SchemaDoc.Double.Basic

/-!
# Integers as floating point numbers

An integer whose bits are fewer than those of the largest floating point number has a nearest
number: scaled to 53 bits before the point it is rounded to a significand of 53 bits, or to the
next power of two.
-/
namespace SchemaDoc

namespace Double

theorem le_divHalfEven (num den : Nat) : num / den ≤ divHalfEven num den := by
  simp only [divHalfEven]
  split_ifs <;> omega

theorem divHalfEven_le (num den : Nat) : divHalfEven num den ≤ num / den + 1 := by
  simp only [divHalfEven]
  split_ifs <;> omega

/-- A natural number scaled by its bit length has 53 bits before the point. -/
theorem scaledRatio_bounds {n : Nat} (hn : n ≠ 0) :
    Nat.pow 2 52 ≤ (scaledRatio n 1 ((n.log2 : Int) - 52)).1 /
        (scaledRatio n 1 ((n.log2 : Int) - 52)).2 ∧
      (scaledRatio n 1 ((n.log2 : Int) - 52)).1 /
        (scaledRatio n 1 ((n.log2 : Int) - 52)).2 < Nat.pow 2 53 := by
  have hlow : 2 ^ n.log2 ≤ n := Nat.log2_self_le hn
  have hhigh : n < 2 ^ (n.log2 + 1) := Nat.lt_log2_self
  unfold scaledRatio
  split
  · next hle =>
    have hbits : n.log2 = 52 + ((n.log2 : Int) - 52).toNat := by omega
    generalize ((n.log2 : Int) - 52).toNat = k at hbits
    rw [hbits] at hlow hhigh
    simp only [one_mul, Nat.pow_eq]
    have hpos : 0 < 2 ^ k := Nat.two_pow_pos k
    constructor
    · rw [Nat.le_div_iff_mul_le hpos, ← Nat.pow_add]
      exact hlow
    · rw [Nat.div_lt_iff_lt_mul hpos, ← Nat.pow_add]
      exact hhigh.trans_le (Nat.pow_le_pow_right (by decide) (by omega))
  · next hlt =>
    have hbits : 52 = n.log2 + (-((n.log2 : Int) - 52)).toNat := by omega
    generalize (-((n.log2 : Int) - 52)).toNat = k at hbits
    simp only [Nat.div_one, Nat.pow_eq]
    have hpos : 0 < 2 ^ k := Nat.two_pow_pos k
    constructor
    · calc 2 ^ 52 = 2 ^ n.log2 * 2 ^ k := by rw [← Nat.pow_add, ← hbits]
        _ ≤ n * 2 ^ k := Nat.mul_le_mul_right _ hlow
    · calc n * 2 ^ k < 2 ^ (n.log2 + 1) * 2 ^ k := Nat.mul_lt_mul_of_pos_right hhigh hpos
        _ = 2 ^ 53 := by rw [← Nat.pow_add]; congr 1; omega

theorem roundingExponent_one {n : Nat} (hn : n ≠ 0) :
    roundingExponent n 1 = (n.log2 : Int) - 52 := by
  have hbounds := (scaledRatio_bounds hn).1
  have hone : Nat.log2 1 = 0 := by decide
  simp only [roundingExponent, hone, Nat.cast_zero, sub_zero]
  rw [if_neg (by omega)]
  omega

/-- An integer of at most 1023 bits has a nearest floating point number. -/
theorem exists_ofRatio?_one (negative : Bool) {n : Nat} (h : n.log2 < 1023) :
    ∃ x, ofRatio? negative n 1 = some x := by
  by_cases hn : n = 0
  · exact ⟨zero negative, by rw [ofRatio?, if_pos hn]⟩
  · obtain ⟨hlow, hhigh⟩ := scaledRatio_bounds hn
    simp only [ofRatio?, if_neg hn, roundingExponent_one hn]
    generalize scaledRatio n 1 ((n.log2 : Int) - 52) = scaled at hlow hhigh ⊢
    have hle := le_divHalfEven scaled.1 scaled.2
    have hge := divHalfEven_le scaled.1 scaled.2
    split
    · have hcanonical : Canonical (Nat.pow 2 52) ((n.log2 : Int) - 52 + 1) :=
        .inr ⟨le_refl _, by decide, by omega, by omega⟩
      exact ⟨_, by rw [ofParts?, dif_pos hcanonical]⟩
    · have hcanonical : Canonical (divHalfEven scaled.1 scaled.2) ((n.log2 : Int) - 52) :=
        .inr ⟨by omega, by omega, by omega, by omega⟩
      exact ⟨_, by rw [ofParts?, dif_pos hcanonical]⟩

end Double

/-- An integer of 64 bits is a finite floating point number. -/
theorem Binary64.exists_ofInt_finite {n : Int} (h : n.natAbs < Nat.pow 2 64) :
    ∃ x, Binary64.ofInt n = .finite x := by
  have hbits : n.natAbs.log2 < 1023 := by
    by_cases hn : n.natAbs = 0
    · rw [hn]
      decide
    · have hlog : n.natAbs.log2 < 64 := (Nat.log2_lt hn).mpr h
      omega
  obtain ⟨x, hx⟩ := Double.exists_ofRatio?_one (n < 0) hbits
  refine ⟨x, ?_⟩
  rw [Binary64.ofInt, Double.ofInt?, hx]

end SchemaDoc
