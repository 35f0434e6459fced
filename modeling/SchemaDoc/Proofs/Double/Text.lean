import Mathlib.Data.List.TakeWhile
import SchemaDoc.Json.Printer
import SchemaDoc.Proofs.Double.Rounding

/-!
# What number texts tell

A printed decimal can be read back: its digits, the place of the point and the power of ten tell
its value, in whichever of the two forms it is written. Together with the rounding intervals this
makes the texts of numbers as different as the numbers are.
-/
namespace SchemaDoc

namespace Decimal

/-- What digits with a point among them stand for. -/
def mantissa (text : List Char) : ℚ :=
  let fraction := (text.dropWhile (· != '.')).tail
  Nat.ofDigitChars 10 (text.takeWhile (· != '.') ++ fraction) 0 * 10 ^ (-fraction.length : ℤ)

/-- What a sign and digits stand for. -/
def power : List Char → ℤ
  | '-' :: digits => -Nat.ofDigitChars 10 digits 0
  | _ :: digits => Nat.ofDigitChars 10 digits 0
  | [] => 0

/-- What the text of a decimal stands for. -/
def valueOf (text : List Char) : ℚ :=
  mantissa (text.takeWhile (· != 'e')) * 10 ^ power (text.dropWhile (· != 'e')).tail

/-- The value of a decimal. -/
def value (x : Decimal) : ℚ := x.digits * 10 ^ x.exponent

section

variable {whole fraction digits : List Char} {c : Char}

theorem split_at (h : c ∉ whole) (rest : List Char) :
    (whole ++ c :: rest).takeWhile (· != c) = whole ∧
      (whole ++ c :: rest).dropWhile (· != c) = c :: rest := by
  have before : ∀ d ∈ whole, (d != c) = true := by
    intro d mem
    exact bne_iff_ne.mpr (ne_of_mem_of_not_mem mem h)
  rw [List.takeWhile_append_of_pos before, List.dropWhile_append_of_pos before]
  simp

theorem split_nowhere (h : c ∉ whole) :
    whole.takeWhile (· != c) = whole ∧ whole.dropWhile (· != c) = [] := by
  have before : ∀ d ∈ whole, (d != c) = true := by
    intro d mem
    exact bne_iff_ne.mpr (ne_of_mem_of_not_mem mem h)
  exact ⟨List.takeWhile_eq_self_iff.mpr before, List.dropWhile_eq_nil_iff.mpr before⟩

theorem mantissa_point (h : '.' ∉ whole) (fraction : List Char) :
    mantissa (whole ++ '.' :: fraction) =
      Nat.ofDigitChars 10 (whole ++ fraction) 0 * 10 ^ (-fraction.length : ℤ) := by
  obtain ⟨before, after⟩ := split_at h fraction
  simp [mantissa, before, after]

theorem mantissa_whole (h : '.' ∉ whole) : mantissa whole = Nat.ofDigitChars 10 whole 0 := by
  obtain ⟨before, after⟩ := split_nowhere h
  simp [mantissa, before, after]

theorem valueOf_power (h : 'e' ∉ whole) (rest : List Char) :
    valueOf (whole ++ 'e' :: rest) = mantissa whole * 10 ^ power rest := by
  obtain ⟨before, after⟩ := split_at h rest
  simp [valueOf, before, after]

theorem valueOf_plain (h : 'e' ∉ whole) : valueOf whole = mantissa whole := by
  obtain ⟨before, after⟩ := split_nowhere h
  simp [valueOf, before, after, power]

theorem ofDigitChars_append_zeros (digits : List Char) (n : Nat) :
    Nat.ofDigitChars 10 (digits ++ List.replicate n '0') 0 =
      10 ^ n * Nat.ofDigitChars 10 digits 0 := by
  rw [Nat.ofDigitChars_append, Nat.ofDigitChars_replicate_zero]

theorem power_sign (leading : Int) :
    power ((if leading < 0 then '-' else '+') :: Nat.toDigits 10 leading.natAbs) = leading := by
  split
  · next negative =>
    simp only [power, Nat.ofDigitChars_ten_toDigits]
    omega
  · have plus : power ('+' :: Nat.toDigits 10 leading.natAbs) =
        Nat.ofDigitChars 10 (Nat.toDigits 10 leading.natAbs) 0 := rfl
    rw [plus, Nat.ofDigitChars_ten_toDigits]
    omega

theorem not_mem_of_isDigit (h : ∀ d ∈ digits, d.isDigit = true) (hc : c.isDigit = false) :
    c ∉ digits := by
  intro mem
  rw [h c mem] at hc
  cases hc

/-- The point before all digits. -/
theorem valueOf_before (noLetter : 'e' ∉ digits) (n : Nat) :
    valueOf ('0' :: '.' :: (List.replicate n '0' ++ digits)) =
      Nat.ofDigitChars 10 digits 0 * 10 ^ (-(n + digits.length : ℕ) : ℤ) := by
  have value : Nat.ofDigitChars 10 (['0'] ++ (List.replicate n '0' ++ digits)) 0 =
      Nat.ofDigitChars 10 digits 0 := by
    rw [Nat.ofDigitChars_append, Nat.ofDigitChars_append, Nat.ofDigitChars_replicate_zero]
    rfl
  rw [← List.singleton_append, valueOf_plain (by simp [noLetter]), mantissa_point (by simp), value,
    List.length_append, List.length_replicate]

/-- The point after all digits. -/
theorem valueOf_after (noPoint : '.' ∉ digits) (noLetter : 'e' ∉ digits) (n : Nat) :
    valueOf (digits ++ List.replicate n '0' ++ ['.', '0']) =
      Nat.ofDigitChars 10 digits 0 * 10 ^ (n : ℤ) := by
  have value : Nat.ofDigitChars 10 (digits ++ List.replicate n '0' ++ ['0']) 0 =
      10 ^ (n + 1) * Nat.ofDigitChars 10 digits 0 := by
    rw [List.append_assoc, ← List.replicate_succ', ofDigitChars_append_zeros]
  rw [valueOf_plain (by simp [noLetter]), mantissa_point (by simp [noPoint]), value]
  push_cast
  rw [List.length_singleton, pow_succ, zpow_natCast]
  norm_num
  ring

/-- The point among the digits. -/
theorem valueOf_among (noPoint : '.' ∉ digits) (noLetter : 'e' ∉ digits) (n : Nat) :
    valueOf (digits.take n ++ '.' :: digits.drop n) =
      Nat.ofDigitChars 10 digits 0 * 10 ^ (-(digits.length - n : ℕ) : ℤ) := by
  have noPoint' : '.' ∉ digits.take n := fun mem => noPoint (List.mem_of_mem_take mem)
  have before : 'e' ∉ digits.take n := fun mem => noLetter (List.mem_of_mem_take mem)
  have after : 'e' ∉ digits.drop n := fun mem => noLetter (List.mem_of_mem_drop mem)
  rw [valueOf_plain (by simp [before, after]), mantissa_point noPoint', List.take_append_drop,
    List.length_drop]

/-- With all places written, the point stands where the leading exponent says. -/
theorem valueOf_positional (h : ∀ d ∈ digits, d.isDigit = true) (leading : Int) :
    valueOf (positional digits leading) =
      Nat.ofDigitChars 10 digits 0 * 10 ^ (leading + 1 - digits.length) := by
  have noPoint : '.' ∉ digits := not_mem_of_isDigit h rfl
  have noLetter : 'e' ∉ digits := not_mem_of_isDigit h rfl
  unfold positional
  dsimp only
  split_ifs with negative short
  · rw [valueOf_before noLetter]
    congr 2
    omega
  · rw [valueOf_after noPoint noLetter]
    congr 2
    omega
  · rw [valueOf_among noPoint noLetter]
    congr 2
    omega

/-- With a power of ten, the point stands after the first digit. -/
theorem valueOf_scientific (h : ∀ d ∈ digits, d.isDigit = true) (nonempty : digits ≠ [])
    (leading : Int) :
    valueOf (scientific digits leading) =
      Nat.ofDigitChars 10 digits 0 * 10 ^ (leading + 1 - digits.length) := by
  have noPoint : '.' ∉ digits := not_mem_of_isDigit h rfl
  have noLetter : 'e' ∉ digits := not_mem_of_isDigit h rfl
  unfold scientific
  dsimp only
  split
  · exact absurd rfl nonempty
  · next first =>
    rw [← List.singleton_append, valueOf_power noLetter, mantissa_whole noPoint, power_sign]
    simp
  · next first rest several =>
    have noLetter' : 'e' ∉ [first] ++ '.' :: rest := by simpa using noLetter
    have noPoint' : '.' ∉ [first] := by
      intro mem
      exact noPoint (List.mem_cons.mpr (.inl (List.mem_singleton.mp mem)))
    have text : ∀ tail, first :: '.' :: (rest ++ 'e' :: tail) =
        [first] ++ '.' :: rest ++ 'e' :: tail := by simp
    rw [text, valueOf_power noLetter', mantissa_point noPoint', power_sign, mul_assoc,
      ← zpow_add₀ (by norm_num), List.singleton_append]
    congr 2
    rw [List.length_cons]
    push_cast
    ring

end

/-! ## Significant digits -/

variable {x : Decimal} {c : Char}

/-- Only zeros at the end are left out of the significant digits. -/
theorem exists_toDigits_eq (x : Decimal) :
    ∃ zeros, Nat.toDigits 10 x.digits = x.significantDigits ++ List.replicate zeros '0' := by
  let digits := Nat.toDigits 10 x.digits
  have zeros : digits.reverse.takeWhile (· == '0') =
      List.replicate (digits.reverse.takeWhile (· == '0')).length '0' := by
    apply List.eq_replicate_iff.mpr ⟨rfl, fun c mem => ?_⟩
    have zero : (c == '0') = true := List.mem_takeWhile_imp (p := (· == '0')) mem
    exact beq_iff_eq.mp zero
  generalize (digits.reverse.takeWhile (· == '0')).length = count at zeros
  have whole : digits =
      (digits.reverse.dropWhile (· == '0')).reverse ++ List.replicate count '0' := by
    have parts := congrArg List.reverse
      (List.takeWhile_append_dropWhile (p := (· == '0')) (l := digits.reverse))
    rw [List.reverse_reverse, List.reverse_append, zeros, List.reverse_replicate] at parts
    exact parts.symm
  unfold significantDigits
  split
  · next none =>
    -- Only zero has no other digits.
    have value := congrArg (Nat.ofDigitChars 10 · 0) whole
    have zero : x.digits = 0 := by
      simpa [digits, none, Nat.ofDigitChars_replicate_zero] using value
    exact ⟨0, by rw [zero]; rfl⟩
  · exact ⟨count, whole⟩

theorem isDigit_of_mem_significantDigits (h : c ∈ x.significantDigits) : c.isDigit = true := by
  obtain ⟨zeros, same⟩ := x.exists_toDigits_eq
  have mem : c ∈ Nat.toDigits 10 x.digits := same ▸ List.mem_append_left _ h
  exact Nat.isDigit_of_mem_toDigits (by decide) (by decide) mem

theorem significantDigits_ne_nil (x : Decimal) : x.significantDigits ≠ [] := by
  unfold significantDigits
  split
  · exact List.cons_ne_nil _ _
  · next nonempty => exact nonempty

/-- The text of a decimal in any style tells its value. -/
theorem valueOf_chars (style : Style) (x : Decimal) : valueOf (x.chars style) = x.value := by
  obtain ⟨zeros, same⟩ := x.exists_toDigits_eq
  have digits : (x.digits : ℚ) = 10 ^ zeros * Nat.ofDigitChars 10 x.significantDigits 0 := by
    have read := congrArg (Nat.ofDigitChars 10 · 0) same
    simp only [Nat.ofDigitChars_ten_toDigits, ofDigitChars_append_zeros] at read
    exact_mod_cast read
  have places : x.leadingExponent + 1 - x.significantDigits.length = zeros + x.exponent := by
    have length := congrArg List.length same
    rw [List.length_append, List.length_replicate] at length
    rw [leadingExponent, length]
    push_cast
    ring
  have told : Nat.ofDigitChars 10 x.significantDigits 0 *
      (10 : ℚ) ^ (x.leadingExponent + 1 - x.significantDigits.length) = x.value := by
    rw [places, value, digits, zpow_add₀ (by norm_num), zpow_natCast]
    ring
  unfold chars
  dsimp only
  split
  · rw [valueOf_positional fun _ => isDigit_of_mem_significantDigits, told]
  · rw [valueOf_scientific (fun _ => isDigit_of_mem_significantDigits) x.significantDigits_ne_nil,
      told]

/-- The text of a decimal begins with a digit, and a point or a power of ten is in it. -/
theorem exists_chars_eq_cons (style : Style) (x : Decimal) :
    ∃ first rest, x.chars style = first :: rest ∧ first.isDigit = true ∧
      ('.' ∈ rest ∨ 'e' ∈ rest) := by
  obtain ⟨first, others, same⟩ := List.exists_cons_of_ne_nil x.significantDigits_ne_nil
  have digit : first.isDigit = true :=
    isDigit_of_mem_significantDigits (same ▸ List.mem_cons_self)
  unfold chars
  dsimp only
  rw [same]
  split
  · unfold positional
    dsimp only
    split_ifs
    · exact ⟨_, _, rfl, rfl, .inl List.mem_cons_self⟩
    · exact ⟨first, _, rfl, digit, .inl (by simp)⟩
    · exact ⟨first, _, rfl, digit, .inl (by simp)⟩
  · cases others with
    | nil => exact ⟨first, _, rfl, digit, .inr List.mem_cons_self⟩
    | cons second rest => exact ⟨first, _, rfl, digit, .inl List.mem_cons_self⟩

end Decimal

namespace Double

variable {style : Decimal.Style} {x y : Double}

/-- The text of the magnitude of a number. -/
def magnitudeChars (style : Decimal.Style) (x : Double) : List Char :=
  if x.isZero then ['0', '.', '0'] else x.shortest.chars style

theorem chars_eq (style : Decimal.Style) (x : Double) :
    x.chars style = if x.negative then '-' :: x.magnitudeChars style else x.magnitudeChars style :=
  rfl

theorem exponent_of_zero (h : x.significand = 0) : x.exponent = -1074 := by
  have canonical := x.canonical
  simp only [Canonical, Nat.pow_eq] at canonical
  omega

theorem isZero_iff : x.isZero = true ↔ x.significand = 0 := by
  simp [isZero]

/-- A text of a magnitude is read as a rational that rounds to the number. -/
theorem roundsTo_valueOf (h : x.significand ≠ 0) :
    x.RoundsTo (Decimal.valueOf (x.magnitudeChars style)) := by
  have nonzero : ¬ x.isZero = true := fun zero => h (isZero_iff.mp zero)
  rw [magnitudeChars, if_neg nonzero, Decimal.valueOf_chars]
  exact roundsTo_shortest h

theorem valueOf_zero (h : x.significand = 0) :
    Decimal.valueOf (x.magnitudeChars style) = 0 := by
  rw [magnitudeChars, if_pos (isZero_iff.mpr h)]
  have text : Decimal.valueOf ['0', '.', '0'] = Decimal.mantissa (['0'] ++ '.' :: ['0']) :=
    Decimal.valueOf_plain (by decide)
  rw [text, Decimal.mantissa_point (by decide)]
  norm_num [Nat.ofDigitChars]

theorem eq_of_magnitudeChars_eq (h : x.magnitudeChars style = y.magnitudeChars style) :
    x.significand = y.significand ∧ x.exponent = y.exponent := by
  by_cases hx : x.significand = 0
  · by_cases hy : y.significand = 0
    · exact ⟨hx.trans hy.symm, (exponent_of_zero hx).trans (exponent_of_zero hy).symm⟩
    · have rounds : y.RoundsTo 0 := valueOf_zero hx ▸ h ▸ roundsTo_valueOf hy
      exact absurd (rounds.pos hy) (lt_irrefl 0)
  · by_cases hy : y.significand = 0
    · have rounds : x.RoundsTo 0 := valueOf_zero hy ▸ h ▸ roundsTo_valueOf hx
      exact absurd (rounds.pos hx) (lt_irrefl 0)
    · have rounds : y.RoundsTo (Decimal.valueOf (x.magnitudeChars style)) :=
        h ▸ roundsTo_valueOf hy
      exact eq_of_roundsTo (roundsTo_valueOf hx) rounds

theorem exists_magnitudeChars_eq_cons (style : Decimal.Style) (x : Double) :
    ∃ first rest, x.magnitudeChars style = first :: rest ∧ first.isDigit = true ∧
      ('.' ∈ rest ∨ 'e' ∈ rest) := by
  unfold magnitudeChars
  split
  · exact ⟨'0', ['.', '0'], rfl, rfl, .inl List.mem_cons_self⟩
  · exact Decimal.exists_chars_eq_cons style x.shortest

/-- Different numbers have different texts; the two zeros differ in the sign. -/
theorem chars_inj (h : x.chars style = y.chars style) : x = y := by
  obtain ⟨first, rest, hx, digit, -⟩ := exists_magnitudeChars_eq_cons style x
  obtain ⟨first', rest', hy, digit', -⟩ := exists_magnitudeChars_eq_cons style y
  rw [chars_eq, chars_eq] at h
  have both : x.negative = y.negative ∧ x.magnitudeChars style = y.magnitudeChars style := by
    cases hxs : x.negative <;> cases hys : y.negative <;> simp only [hxs, hys] at h
    · exact ⟨rfl, h⟩
    · rw [hx] at h
      obtain rfl : first = '-' := (List.cons_eq_cons.mp h).1
      cases digit
    · rw [hy] at h
      obtain rfl : '-' = first' := (List.cons_eq_cons.mp h).1
      cases digit'
    · exact ⟨rfl, (List.cons_eq_cons.mp h).2⟩
  obtain ⟨significand, exponent⟩ := eq_of_magnitudeChars_eq both.2
  cases x
  cases y
  simp_all

theorem exists_mark (style : Decimal.Style) (x : Double) :
    '.' ∈ x.chars style ∨ 'e' ∈ x.chars style := by
  obtain ⟨first, rest, same, -, mark⟩ := exists_magnitudeChars_eq_cons style x
  have mark : '.' ∈ x.magnitudeChars style ∨ 'e' ∈ x.magnitudeChars style := by
    rw [same]
    exact mark.imp (List.mem_cons_of_mem _) (List.mem_cons_of_mem _)
  rw [chars_eq]
  split
  · exact mark.imp (List.mem_cons_of_mem _) (List.mem_cons_of_mem _)
  · exact mark

end Double

/-! ## Numbers -/

namespace Number

theorem isDigit_of_mem_chars_integer {n : Int} {c : Char} (h : c ∈ (integer n).chars) :
    c = '-' ∨ c.isDigit = true := by
  have digit : c ∈ Nat.toDigits 10 n.natAbs → c.isDigit = true :=
    Nat.isDigit_of_mem_toDigits (by decide) (by decide)
  simp only [chars] at h
  split at h
  · rcases List.mem_cons.mp h with minus | mem
    · exact .inl minus
    · exact .inr (digit mem)
  · exact .inr (digit h)

/-- An integer is not written like a floating point number. -/
theorem chars_integer_ne_float (n : Int) (x : Double) : (integer n).chars ≠ (float x).chars := by
  intro same
  have plain : ∀ c ∈ (integer n).chars, c ≠ '.' ∧ c ≠ 'e' := by
    intro c mem
    rcases isDigit_of_mem_chars_integer mem with rfl | digit
    · decide
    · constructor <;> rintro rfl <;> cases digit
  rcases x.exists_mark style with point | letter
  · exact (plain '.' (same ▸ point)).1 rfl
  · exact (plain 'e' (same ▸ letter)).2 rfl

theorem chars_integer_inj {m n : Int} (h : (integer m).chars = (integer n).chars) : m = n := by
  have read : ∀ {k l : Nat}, Nat.toDigits 10 k = Nat.toDigits 10 l → k = l := by
    intro k l same
    simpa using congrArg (Nat.ofDigitChars 10 · 0) same
  have minus : ∀ {k : Nat} {rest : List Char}, Nat.toDigits 10 k ≠ '-' :: rest := by
    intro k rest same
    have digit : ('-').isDigit = true :=
      Nat.isDigit_of_mem_toDigits (b := 10) (n := k) (by decide) (by decide) (same ▸ List.mem_cons_self)
    cases digit
  simp only [chars] at h
  split_ifs at h
  · have := read (List.cons_eq_cons.mp h).2
    omega
  · exact absurd h.symm minus
  · exact absurd h minus
  · have := read h
    omega

/-- Numbers that are written alike are the same. -/
theorem chars_inj {m n : Number} (h : m.chars = n.chars) : m = n := by
  cases m with
  | integer m =>
    cases n with
    | integer n => exact congrArg integer (chars_integer_inj h)
    | float y => exact absurd h (chars_integer_ne_float m y)
  | float x =>
    cases n with
    | integer n => exact absurd h.symm (chars_integer_ne_float n x)
    | float y => exact congrArg float (Double.chars_inj h)

end Number

end SchemaDoc
