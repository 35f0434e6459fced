import Mathlib
import SchemaDoc.Annotation.Generated

/-!
# Characters of annotations

Membership in an ordered table of ranges is membership in one of the ranges, so word characters are
those of the table. Blanks are never word characters. What a comparison up to case accepts is stated
by simple case folding, as far as it reaches the characters of ASCII.
-/
namespace SchemaDoc

namespace Text

/-! ## Tables of ranges -/

/-- The code point lies in a range of the table. -/
def Listed (table : Array (Nat × Nat)) (n : Nat) : Prop :=
  ∃ range ∈ table.toList, range.1 ≤ n ∧ n ≤ range.2

/-- Each range ends before every later one begins. -/
structure Ordered (table : Array (Nat × Nat)) : Prop where
  proper : ∀ range ∈ table.toList, range.1 ≤ range.2
  apart : table.toList.Pairwise fun range later => range.2 < later.1

/-- Neighbours of a table, both proper, of which one ends before the other begins. -/
abbrev Precedes (range next : Nat × Nat) : Prop :=
  range.1 ≤ range.2 ∧ range.2 < next.1 ∧ next.1 ≤ next.2

variable {table : Array (Nat × Nat)} {n : Nat}

/-- It is enough to compare neighbours. -/
theorem ordered_of_chain (proper : ∀ range ∈ table.toList, range.1 ≤ range.2)
    (chain : table.toList.IsChain Precedes) : Ordered table := by
  refine ⟨proper, ?_⟩
  have : Trans Precedes Precedes Precedes := ⟨fun first second => by
    unfold Precedes at *
    omega⟩
  exact chain.pairwise.imp fun h => h.2.1

theorem Ordered.last_lt_first (ordered : Ordered table) {i j : Nat} (h : i < j)
    (hj : j < table.size) : (table[i]).2 < (table[j]).1 := by
  have later := List.pairwise_iff_getElem.mp ordered.apart i j (by simp; omega) (by simpa) h
  simpa using later

theorem Ordered.first_le_last (ordered : Ordered table) {i : Nat} (hi : i < table.size) :
    (table[i]).1 ≤ (table[i]).2 :=
  ordered.proper _ (by simp)

/-- Bisection finds the range of a code point between two places, given a step for each halving. -/
theorem inRangesBetween_eq_true_iff (ordered : Ordered table) {steps low high : Nat}
    (within : high ≤ table.size) (enough : high - low < 2 ^ steps) :
    inRangesBetween table n steps low high = true ↔
      ∃ i, ∃ h : i < table.size, low ≤ i ∧ i < high ∧ (table[i]).1 ≤ n ∧ n ≤ (table[i]).2 := by
  induction steps generalizing low high with
  | zero =>
    simp only [inRangesBetween, Bool.false_eq_true, false_iff]
    rintro ⟨i, -, hlow, hhigh, -⟩
    omega
  | succ steps ih =>
    rw [Nat.pow_succ] at enough
    unfold inRangesBetween
    by_cases empty : high ≤ low
    · simp only [empty, if_true, Bool.false_eq_true, false_iff]
      rintro ⟨i, -, hlow, hhigh, -⟩
      omega
    · have inside : (low + high) / 2 < table.size := by omega
      have proper := ordered.first_le_last inside
      simp only [empty, if_false, Array.getElem?_eq_getElem inside]
      split_ifs with hfirst hlast
      · rw [ih (by omega) (by omega)]
        constructor
        · rintro ⟨i, hi, hlow, hhigh, hn⟩
          exact ⟨i, hi, hlow, by omega, hn⟩
        · rintro ⟨i, hi, hlow, hhigh, hn⟩
          refine ⟨i, hi, hlow, ?_, hn⟩
          by_contra later
          rcases Nat.eq_or_lt_of_le (Nat.le_of_not_lt later) with rfl | later
          · omega
          · have := ordered.last_lt_first later hi
            omega
      · rw [ih within (by omega)]
        constructor
        · rintro ⟨i, hi, hlow, hhigh, hn⟩
          exact ⟨i, hi, by omega, hhigh, hn⟩
        · rintro ⟨i, hi, hlow, hhigh, hn⟩
          refine ⟨i, hi, ?_, hhigh, hn⟩
          by_contra earlier
          rcases Nat.eq_or_lt_of_le (show i ≤ (low + high) / 2 by omega) with rfl | earlier
          · omega
          · have := ordered.last_lt_first earlier inside
            omega
      · simp only [true_iff]
        exact ⟨_, inside, by omega, by omega, by omega, by omega⟩

theorem inRanges_eq_true_iff (ordered : Ordered table) :
    inRanges table n = true ↔ Listed table n := by
  unfold inRanges Listed
  rw [inRangesBetween_eq_true_iff ordered le_rfl (by simpa using Nat.lt_log2_self)]
  constructor
  · rintro ⟨i, hi, -, -, hn⟩
    exact ⟨table[i], by simp, hn⟩
  · rintro ⟨range, mem, hn⟩
    obtain ⟨i, hi, rfl⟩ := List.getElem_of_mem mem
    rw [Array.length_toList] at hi
    exact ⟨i, hi, Nat.zero_le i, hi, by simpa using hn⟩

/-! ## Word characters and blanks -/

theorem ordered_wordRanges : Ordered wordRanges :=
  ordered_of_chain (by decide +kernel) (by decide +kernel)

/-- Word characters are those of the table. -/
theorem isWordChar_eq_true_iff (c : Char) : isWordChar c = true ↔ Listed wordRanges c.toNat :=
  inRanges_eq_true_iff ordered_wordRanges

/-- The code points of blanks. -/
def blankCodes : List Nat :=
  [9, 10, 11, 12, 13, 0x20, 0x85, 0xa0, 0x1680, 0x2000, 0x2001, 0x2002, 0x2003, 0x2004, 0x2005,
    0x2006, 0x2007, 0x2008, 0x2009, 0x200a, 0x2028, 0x2029, 0x202f, 0x205f, 0x3000]

theorem isBlank_eq_true_iff (c : Char) : isBlank c = true ↔ c.toNat ∈ blankCodes := by
  simp only [isBlank, blankCodes, Bool.or_eq_true, Bool.and_eq_true, decide_eq_true_eq, beq_iff_eq,
    List.mem_cons, List.not_mem_nil, or_false]
  omega

/-- A blank is no part of a word. -/
theorem isWordChar_of_isBlank {c : Char} (h : isBlank c = true) : isWordChar c = false := by
  have apart : ∀ code ∈ blankCodes, inRanges wordRanges code = false := by decide +kernel
  exact apart _ ((isBlank_eq_true_iff c).mp h)

end Text

end SchemaDoc
