import Mathlib.Algebra.Order.Field.Power
import Mathlib.Tactic.Linarith
import Mathlib.Tactic.NormNum
import Mathlib.Tactic.Positivity
import Mathlib.Tactic.Ring
import SchemaDoc.Double.Shortest

/-!
# Rounding intervals

The rationals that round to a floating point number lie in an interval around it, whose ends belong
to it if the significand is even. The intervals of different numbers have nothing in common, and
the shortest decimal of a number lies in its interval: with seventeen digits the grid is finer than
the interval is wide.
-/
namespace SchemaDoc.Double

variable {x y : Double} {v : ℚ}

/-- A quarter of the last place of a number. -/
def unit (x : Double) : ℚ := 2 ^ (x.exponent - 2)

/-- The magnitude of a number. -/
def magnitude (x : Double) : ℚ := x.significand * 2 ^ x.exponent

/-- The rational rounds to the number. -/
def RoundsTo (x : Double) (v : ℚ) : Prop :=
  if x.significand % 2 = 0 then x.lowQuarters * x.unit ≤ v ∧ v ≤ x.highQuarters * x.unit
  else x.lowQuarters * x.unit < v ∧ v < x.highQuarters * x.unit

theorem unit_pos (x : Double) : 0 < x.unit := zpow_pos (by norm_num) _

theorem mul_unit_le (x : Double) {m n : ℕ} (h : m ≤ n) : (m : ℚ) * x.unit ≤ n * x.unit :=
  mul_le_mul_of_nonneg_right (by exact_mod_cast h) x.unit_pos.le

theorem mul_unit_lt (x : Double) {m n : ℕ} (h : m < n) : (m : ℚ) * x.unit < n * x.unit :=
  mul_lt_mul_of_pos_right (by exact_mod_cast h) x.unit_pos

theorem magnitude_eq (x : Double) : x.magnitude = 4 * x.significand * x.unit := by
  have four : (2 : ℚ) ^ x.exponent = 4 * 2 ^ (x.exponent - 2) := by
    rw [zpow_sub₀ (by norm_num)]
    norm_num
    ring
  rw [magnitude, unit, four]
  ring

theorem RoundsTo.bounds (h : x.RoundsTo v) :
    x.lowQuarters * x.unit ≤ v ∧ v ≤ x.highQuarters * x.unit := by
  unfold RoundsTo at h
  split at h
  · exact h
  · exact ⟨h.1.le, h.2.le⟩

theorem RoundsTo.strict (h : x.RoundsTo v) (odd : x.significand % 2 = 1) :
    x.lowQuarters * x.unit < v ∧ v < x.highQuarters * x.unit := by
  rwa [RoundsTo, if_neg (by omega)] at h

theorem roundsTo_of_strict (h : x.lowQuarters * x.unit < v ∧ v < x.highQuarters * x.unit) :
    x.RoundsTo v := by
  unfold RoundsTo
  split
  · exact ⟨h.1.le, h.2.le⟩
  · exact h

/-! ## Different numbers -/

theorem significand_lt (x : Double) : x.significand < 2 ^ 53 := by
  have canonical := x.canonical
  simp only [Canonical, Nat.pow_eq] at canonical
  omega

theorem le_exponent (x : Double) : -1074 ≤ x.exponent := by
  have canonical := x.canonical
  simp only [Canonical] at canonical
  omega

/-- At a larger exponent than the least one, the interval begins far above zero. -/
theorem le_lowQuarters (h : -1074 < x.exponent) : 2 ^ 54 - 1 ≤ x.lowQuarters := by
  have canonical := x.canonical
  simp only [Canonical, Nat.pow_eq] at canonical
  simp only [lowQuarters, Nat.pow_eq]
  split <;> omega

theorem not_roundsTo_of_significand_lt (same : x.exponent = y.exponent)
    (less : x.significand < y.significand) (hx : x.RoundsTo v) : ¬ y.RoundsTo v := by
  intro hy
  have unit : y.unit = x.unit := by rw [Double.unit, Double.unit, same]
  have order : x.highQuarters ≤ y.lowQuarters := by
    simp only [highQuarters, lowQuarters, Nat.pow_eq]
    split <;> omega
  have order' : (x.highQuarters : ℚ) * x.unit ≤ y.lowQuarters * y.unit := by
    rw [unit]
    exact x.mul_unit_le order
  have above := hx.bounds.2
  have below := hy.bounds.1
  by_cases odd : x.significand % 2 = 1
  · have inside := (hx.strict odd).2
    linarith
  · by_cases odd' : y.significand % 2 = 1
    · have inside := (hy.strict odd').1
      linarith
    · -- Both are even, so there is a number between them.
      have gap : x.highQuarters < y.lowQuarters := by
        simp only [highQuarters, lowQuarters, Nat.pow_eq]
        split <;> omega
      have gap' : (x.highQuarters : ℚ) * x.unit < y.lowQuarters * y.unit := by
        rw [unit]
        exact x.mul_unit_lt gap
      linarith

theorem not_roundsTo_of_exponent_lt (less : x.exponent < y.exponent) (hx : x.RoundsTo v) :
    ¬ y.RoundsTo v := by
  intro hy
  have hpos := x.unit_pos
  have least := x.le_exponent
  have unit : 2 * x.unit ≤ y.unit := by
    have step : x.exponent - 2 + 1 ≤ y.exponent - 2 := by omega
    calc 2 * x.unit = 2 ^ (x.exponent - 2 + 1) := by
          rw [Double.unit, zpow_add₀ (by norm_num)]
          ring
      _ ≤ y.unit := zpow_le_zpow_right₀ (by norm_num) step
  have low : (2 ^ 54 - 1 : ℚ) ≤ y.lowQuarters := by
    have bound := le_lowQuarters (x := y) (by omega)
    have cast : ((2 ^ 54 - 1 : ℕ) : ℚ) ≤ y.lowQuarters := by exact_mod_cast bound
    norm_num at cast ⊢
    exact cast
  have lowest : (2 ^ 54 - 1 : ℚ) * (2 * x.unit) ≤ y.lowQuarters * y.unit := by gcongr
  have above := hx.bounds.2
  have below := hy.bounds.1
  have small := x.significand_lt
  by_cases odd : x.significand % 2 = 1
  · have high : x.highQuarters ≤ 2 ^ 55 - 2 := by
      simp only [highQuarters]
      omega
    have highest := x.mul_unit_le high
    have inside := (hx.strict odd).2
    norm_num at highest lowest
    linarith
  · have high : x.highQuarters ≤ 2 ^ 55 - 6 := by
      simp only [highQuarters]
      omega
    have highest := x.mul_unit_le high
    norm_num at highest lowest
    linarith

/-- A rational rounds to one magnitude only. -/
theorem eq_of_roundsTo (hx : x.RoundsTo v) (hy : y.RoundsTo v) :
    x.significand = y.significand ∧ x.exponent = y.exponent := by
  rcases lt_trichotomy x.exponent y.exponent with less | same | less
  · exact absurd hy (not_roundsTo_of_exponent_lt less hx)
  · rcases lt_trichotomy x.significand y.significand with less | equal | less
    · exact absurd hy (not_roundsTo_of_significand_lt same less hx)
    · exact ⟨equal, same⟩
    · exact absurd hx (not_roundsTo_of_significand_lt same.symm less hy)
  · exact absurd hx (not_roundsTo_of_exponent_lt less hy)

/-- A number itself rounds to it. -/
theorem roundsTo_magnitude (h : x.significand ≠ 0) : x.RoundsTo x.magnitude := by
  have low : x.lowQuarters < 4 * x.significand := by
    unfold lowQuarters
    split <;> omega
  have high : 4 * x.significand < x.highQuarters := by simp [highQuarters]
  have value : x.magnitude = ((4 * x.significand : ℕ) : ℚ) * x.unit := by
    rw [magnitude_eq]
    push_cast
    rfl
  apply roundsTo_of_strict
  rw [value]
  exact ⟨x.mul_unit_lt low, x.mul_unit_lt high⟩

theorem RoundsTo.pos (h : x.RoundsTo v) (nonzero : x.significand ≠ 0) : 0 < v := by
  have low : 0 < x.lowQuarters := by
    unfold lowQuarters
    split <;> omega
  have least : 0 < (x.lowQuarters : ℚ) * x.unit := mul_pos (by exact_mod_cast low) x.unit_pos
  exact least.trans_le h.bounds.1

/-! ## Grids -/

theorem quarter_pos (x : Double) (g : Int) : (0 : ℚ) < (x.grid g).quarter := by
  simp only [grid, Nat.pow_eq]
  positivity

theorem zpow_toNat_mul (b : ℚ) (hb : b ≠ 0) (k : ℤ) :
    b ^ (-k).toNat * b ^ k = b ^ k.toNat := by
  rw [← zpow_natCast, ← zpow_natCast, ← zpow_add₀ hb]
  congr 1
  omega

/-- A step of the grid and a quarter of the last place are measured alike. -/
theorem point_mul_unit (x : Double) (g : Int) :
    (x.grid g).point * x.unit = 10 ^ g * (x.grid g).quarter := by
  have twos := zpow_toNat_mul 2 (by norm_num) (x.exponent - 2)
  have tens := zpow_toNat_mul 10 (by norm_num) g
  rw [neg_sub] at twos
  simp only [grid, unit, Nat.pow_eq, Nat.cast_mul, Nat.cast_pow, Nat.cast_ofNat]
  rw [mul_assoc, twos, ← tens]
  ring

theorem quarters_mul_unit (x : Double) (g : Int) (m : Nat) :
    ((m * (x.grid g).quarter : ℕ) : ℚ) * x.unit = m * x.unit * (x.grid g).quarter := by
  push_cast
  ring

theorem points_mul_unit (x : Double) (g : Int) (d : Nat) :
    ((d * (x.grid g).point : ℕ) : ℚ) * x.unit = d * 10 ^ g * (x.grid g).quarter := by
  push_cast
  rw [mul_assoc, point_mul_unit, ← mul_assoc]

theorem quarters_le_points_iff (x : Double) (g : Int) (m d : Nat) :
    m * (x.grid g).quarter ≤ d * (x.grid g).point ↔ (m : ℚ) * x.unit ≤ d * 10 ^ g := by
  rw [← Nat.cast_le (α := ℚ), ← mul_le_mul_iff_of_pos_right x.unit_pos, quarters_mul_unit,
    points_mul_unit, mul_le_mul_iff_of_pos_right (x.quarter_pos g)]

theorem points_le_quarters_iff (x : Double) (g : Int) (m d : Nat) :
    d * (x.grid g).point ≤ m * (x.grid g).quarter ↔ d * 10 ^ g ≤ (m : ℚ) * x.unit := by
  rw [← Nat.cast_le (α := ℚ), ← mul_le_mul_iff_of_pos_right x.unit_pos, quarters_mul_unit,
    points_mul_unit, mul_le_mul_iff_of_pos_right (x.quarter_pos g)]

theorem roundsFrom_iff (x : Double) (g : Int) (d : Nat) :
    x.roundsFrom (x.grid g) d = true ↔ x.RoundsTo (d * 10 ^ g) := by
  have low := quarters_le_points_iff x g x.lowQuarters d
  have high := points_le_quarters_iff x g x.highQuarters d
  have low' := points_le_quarters_iff x g x.lowQuarters d
  have high' := quarters_le_points_iff x g x.highQuarters d
  unfold roundsFrom RoundsTo
  split
  · simp [low, high]
  · simp [← not_le, low', high']

/-! ## The leading digit -/

/-- Ten to the 59 is little less than two to the 196. -/
theorem ten_pow_le_two_pow {i j : ℕ} (h : 196 * i ≤ 59 * j) : 10 ^ i ≤ 2 ^ j := by
  apply (Nat.pow_le_pow_iff_left (n := 59) (by norm_num)).mp
  calc (10 ^ i) ^ 59 = (10 ^ 59) ^ i := by rw [← Nat.pow_mul, ← Nat.pow_mul, Nat.mul_comm]
    _ ≤ (2 ^ 196) ^ i := Nat.pow_le_pow_left (by norm_num) i
    _ = 2 ^ (196 * i) := by rw [← Nat.pow_mul]
    _ ≤ 2 ^ (j * 59) := Nat.pow_le_pow_right (by norm_num) (by omega)
    _ = (2 ^ j) ^ 59 := by rw [Nat.pow_mul]

/-- Ten to the 28 is little more than two to the 93. -/
theorem two_pow_le_ten_pow {i j : ℕ} (h : 28 * j ≤ 93 * i) : 2 ^ j ≤ 10 ^ i := by
  apply (Nat.pow_le_pow_iff_left (n := 28) (by norm_num)).mp
  calc (2 ^ j) ^ 28 = 2 ^ (j * 28) := by rw [Nat.pow_mul]
    _ ≤ 2 ^ (93 * i) := Nat.pow_le_pow_right (by norm_num) (by omega)
    _ = (2 ^ 93) ^ i := by rw [← Nat.pow_mul]
    _ ≤ (10 ^ 28) ^ i := Nat.pow_le_pow_left (by norm_num) i
    _ = (10 ^ i) ^ 28 := by rw [← Nat.pow_mul, ← Nat.pow_mul, Nat.mul_comm]

theorem ten_zpow_le_two_zpow {k n : ℤ} (pos : 0 ≤ n → 196 * k ≤ 59 * n)
    (neg : n < 0 → 93 * k ≤ 28 * n) : (10 : ℚ) ^ k ≤ 2 ^ n := by
  rcases le_or_gt 0 n with hn | hn
  · rcases le_or_gt 0 k with hk | hk
    · obtain ⟨j, rfl⟩ := Int.eq_ofNat_of_zero_le hn
      obtain ⟨i, rfl⟩ := Int.eq_ofNat_of_zero_le hk
      have bound := pos hn
      have le := ten_pow_le_two_pow (i := i) (j := j) (by omega)
      rw [zpow_natCast, zpow_natCast]
      exact_mod_cast le
    · have one : (10 : ℚ) ^ k ≤ 1 := zpow_le_one_of_nonpos₀ (by norm_num) hk.le
      exact one.trans (one_le_zpow₀ (by norm_num) hn)
  · have bound := neg hn
    obtain ⟨j, hj⟩ : ∃ j : ℕ, n = -j := ⟨(-n).toNat, by omega⟩
    obtain ⟨i, hi⟩ : ∃ i : ℕ, k = -i := ⟨(-k).toNat, by omega⟩
    have le := two_pow_le_ten_pow (i := i) (j := j) (by omega)
    rw [hi, hj, zpow_neg, zpow_neg, zpow_natCast, zpow_natCast]
    exact inv_anti₀ (by positivity) (by exact_mod_cast le)

theorem atLeast_iff (x : Double) (k : Int) :
    (x.grid k).point ≤ 4 * x.significand * (x.grid k).quarter ↔ (10 : ℚ) ^ k ≤ x.magnitude := by
  have h := points_le_quarters_iff x k (4 * x.significand) 1
  rw [magnitude_eq]
  simpa using h

theorem two_zpow_log2_le (h : x.significand ≠ 0) :
    (2 : ℚ) ^ ((Nat.log2 x.significand : ℤ) + x.exponent) ≤ x.magnitude := by
  have log : (2 : ℚ) ^ Nat.log2 x.significand ≤ x.significand := by
    exact_mod_cast Nat.log2_self_le h
  rw [zpow_add₀ (by norm_num), zpow_natCast, magnitude]
  exact mul_le_mul_of_nonneg_right log (zpow_pos (by norm_num) _).le

/-- The power of ten of the leading digit is not above the number. -/
theorem ten_zpow_leadingExponent_le (h : x.significand ≠ 0) :
    (10 : ℚ) ^ x.leadingExponent ≤ x.magnitude := by
  simp only [leadingExponent, decide_eq_true_eq, atLeast_iff]
  split_ifs with above here
  · exact above
  · exact here
  · have log : x.significand.log2 < 53 := (Nat.log2_lt h).mpr x.significand_lt
    have least := x.le_exponent
    have canonical := x.canonical
    simp only [Canonical] at canonical
    refine le_trans (ten_zpow_le_two_zpow ?_ ?_) (two_zpow_log2_le h) <;> omega

/-! ## The shortest decimal -/

/-- The nearer neighbour is at most half a step of the grid away. -/
theorem nearerPoint_near (x : Double) {s : Grid} (hpoint : 0 < s.point) :
    2 * (4 * x.significand * s.quarter) ≤ 2 * (x.nearerPoint s * s.point) + s.point ∧
      2 * (x.nearerPoint s * s.point) ≤ 2 * (4 * x.significand * s.quarter) + s.point := by
  unfold nearerPoint floorPoint
  generalize 4 * x.significand * s.quarter = value
  have low := Nat.div_mul_le_self value s.point
  have high := Nat.lt_div_mul_add hpoint (a := value)
  have next : (value / s.point + 1) * s.point = value / s.point * s.point + s.point := by ring
  dsimp only
  rw [next]
  split_ifs <;> omega

theorem point_pos (x : Double) (g : Int) : 0 < (x.grid g).point := by
  simp only [grid, Nat.pow_eq]
  positivity

/-- The distance from a number to the nearer point of a grid. -/
theorem abs_nearerPoint_sub_le (x : Double) (g : Int) :
    |x.nearerPoint (x.grid g) * 10 ^ g - x.magnitude| ≤ 10 ^ g / 2 := by
  obtain ⟨low, high⟩ := x.nearerPoint_near (x.point_pos g)
  have value := quarters_mul_unit x g (4 * x.significand)
  have near := points_mul_unit x g (x.nearerPoint (x.grid g))
  have step := point_mul_unit x g
  rw [← Nat.cast_le (α := ℚ), ← mul_le_mul_iff_of_pos_right x.unit_pos] at low high
  push_cast at low high value near
  have below : (2 * x.magnitude) * (x.grid g).quarter ≤
      (2 * (x.nearerPoint (x.grid g) * 10 ^ g) + 10 ^ g) * (x.grid g).quarter := by
    rw [magnitude_eq]
    linarith
  have above : (2 * (x.nearerPoint (x.grid g) * 10 ^ g)) * (x.grid g).quarter ≤
      (2 * x.magnitude + 10 ^ g) * (x.grid g).quarter := by
    rw [magnitude_eq]
    linarith
  have below := le_of_mul_le_mul_right below (x.quarter_pos g)
  have above := le_of_mul_le_mul_right above (x.quarter_pos g)
  rw [abs_le]
  constructor <;> linarith

/-- Seventeen digits are fine enough: the interval reaches over half a step of the grid on either
side. -/
theorem roundsTo_of_fine (h : x.significand ≠ 0) {g : Int} (fine : 10 ^ (g + 16) ≤ x.magnitude) :
    x.RoundsTo (x.nearerPoint (x.grid g) * 10 ^ g) := by
  have hunit := x.unit_pos
  obtain ⟨below, above⟩ := abs_le.mp (x.abs_nearerPoint_sub_le g)
  have step : 10 ^ g * 10 ^ 16 ≤ 4 * x.significand * x.unit := by
    rw [← magnitude_eq]
    rw [zpow_add₀ (by norm_num)] at fine
    exact_mod_cast fine
  have bits : (x.significand : ℚ) * x.unit ≤ (2 ^ 53 : ℕ) * x.unit :=
    x.mul_unit_le x.significand_lt.le
  rw [magnitude_eq] at below above
  apply roundsTo_of_strict
  have high : (x.highQuarters : ℚ) = 4 * x.significand + 2 := by simp [highQuarters]
  rw [high]
  constructor
  · unfold lowQuarters
    split
    · next power =>
      rw [power.1] at step below ⊢
      norm_num at step below ⊢
      linarith
    · have low : ((4 * x.significand - 2 : ℕ) : ℚ) = 4 * x.significand - 2 := by
        rw [Nat.cast_sub (by omega)]
        push_cast
        ring
      rw [low]
      norm_num at step bits
      linarith
  · norm_num at step bits
    linarith

theorem roundsTo_of_pointOn? {g : Int} {d : Nat} (h : x.pointOn? (x.grid g) = some d) :
    x.RoundsTo (d * 10 ^ g) := by
  apply (roundsFrom_iff x g d).mp
  simp only [pointOn?] at h
  generalize (if x.nearerPoint (x.grid g) = x.floorPoint (x.grid g) then
    x.floorPoint (x.grid g) + 1 else x.floorPoint (x.grid g)) = far at h
  split_ifs at h with near other
  · cases h
    exact near
  · cases h
    exact other

theorem roundsTo_shortestFrom {count : Nat} {g : Int}
    (last : x.RoundsTo (x.nearerPoint (x.grid (g - count)) * 10 ^ (g - count))) :
    x.RoundsTo ((x.shortestFrom count g).digits * 10 ^ (x.shortestFrom count g).exponent) := by
  induction count generalizing g with
  | zero => simpa [shortestFrom] using last
  | succ count ih =>
    rw [shortestFrom]
    split
    · next d found => exact roundsTo_of_pointOn? found
    · apply ih
      have same : g - 1 - (count : Int) = g - ((count + 1 : ℕ) : Int) := by
        push_cast
        ring
      rwa [same]

/-- The shortest decimal of a number rounds to it. -/
theorem roundsTo_shortest (h : x.significand ≠ 0) :
    x.RoundsTo (x.shortest.digits * 10 ^ x.shortest.exponent) := by
  apply roundsTo_shortestFrom
  apply roundsTo_of_fine h
  have leading := ten_zpow_leadingExponent_le h
  simpa using leading

end SchemaDoc.Double
