import SchemaDoc.Proofs.Double.Integers
import SchemaDoc.Source.OfText

/-!
# The numbers of a text

The integers that a scanned numeral stands for have 64 bits, and all other numerals stand for
finite floating point numbers or are out of range. So every number in the layout of a text is a
finite floating point number once it is converted.
-/
namespace SchemaDoc

/-- The number has a finite floating point value. -/
def Number.IsFinite (number : Number) : Prop := ∃ x, number.toBinary64 = .finite x

namespace Number

theorem isFinite_float (x : Double) : IsFinite (.float x) := ⟨x, rfl⟩

theorem isFinite_integer {n : Int} (h : n.natAbs < Nat.pow 2 64) : IsFinite (.integer n) :=
  Binary64.exists_ofInt_finite h

end Number

/-! ## Scanned numerals -/

namespace Lexeme

variable {negative : Bool} {significand dropped offset : Nat} {exponent : Int} {number : Number}
  {text : List Char}

theorem gatherWhole_le (digits : List Char) (h : significand ≤ greatestSignificand) :
    (gatherWhole significand digits).1 ≤ greatestSignificand := by
  induction digits generalizing significand with
  | nil => exact h
  | cons c rest ih =>
    simp only [gatherWhole]
    split
    · next hnext => exact ih hnext
    · exact h

theorem inRange_eq_ok {value : Option Number} (h : inRange value offset = .ok number) :
    value = some number := by
  cases value with
  | none => cases h
  | some n =>
    cases h
    rfl

theorem isFinite_floatValue (h : floatValue negative significand exponent = some number) :
    number.IsFinite := by
  obtain ⟨x, -, rfl⟩ := Option.map_eq_some_iff.mp h
  exact Number.isFinite_float _

theorem isFinite_integerValue (hle : significand ≤ greatestSignificand)
    (h : integerValue negative significand = some number) : number.IsFinite := by
  unfold greatestSignificand at hle
  unfold integerValue at h
  split at h
  · cases h
    refine Number.isFinite_integer ?_
    rw [Int.natAbs_natCast]
    exact Nat.lt_of_le_of_lt hle (by decide)
  · split at h
    · next hbound =>
      cases h
      refine Number.isFinite_integer ?_
      rw [Int.natAbs_neg, Int.natAbs_natCast]
      exact Nat.lt_of_le_of_lt hbound.2 (by decide)
    · obtain ⟨x, -, rfl⟩ := Option.map_eq_some_iff.mp h
      exact Number.isFinite_float _

theorem isFinite_scanExponent
    (h : (scanExponent negative significand exponent text offset).reading = .ok number) :
    number.IsFinite := by
  simp only [scanExponent] at h
  split at h
  · cases h
  · split at h
    · cases h
    · simp only at h
      split at h
      · exact isFinite_floatValue (inRange_eq_ok h)
      · split_ifs at h
        cases h
        exact Number.isFinite_float _

theorem isFinite_scanAfterFraction
    (h : (scanAfterFraction negative significand exponent text offset).reading = .ok number) :
    number.IsFinite := by
  unfold scanAfterFraction at h
  split at h
  · split at h
    · exact isFinite_scanExponent h
    · exact isFinite_floatValue (inRange_eq_ok h)
  · exact isFinite_floatValue (inRange_eq_ok h)

theorem isFinite_scanFraction
    (h : (scanFraction negative significand dropped text offset).reading = .ok number) :
    number.IsFinite := by
  unfold scanFraction at h
  split at h
  · cases h
  · split at h
    · cases h
    · exact isFinite_scanAfterFraction h

theorem isFinite_scanAfterWhole {whole : List Char}
    (h : (scanAfterWhole negative whole text offset).reading = .ok number) :
    number.IsFinite := by
  have hle : (gatherWhole 0 whole).1 ≤ greatestSignificand := gatherWhole_le whole (Nat.zero_le _)
  -- What a numeral without a fraction and an exponent is read as.
  have plain : inRange (if (gatherWhole 0 whole).2 = 0 then
      integerValue negative (gatherWhole 0 whole).1
        else floatValue negative (gatherWhole 0 whole).1 (gatherWhole 0 whole).2) offset =
      .ok number → number.IsFinite := by
    intro h
    have hvalue := inRange_eq_ok h
    split at hvalue
    · exact isFinite_integerValue hle hvalue
    · exact isFinite_floatValue hvalue
  cases text with
  | nil => exact plain h
  | cons c rest =>
    simp only [scanAfterWhole] at h
    by_cases hpoint : c = '.'
    · rw [if_pos hpoint] at h
      exact isFinite_scanFraction h
    · rw [if_neg hpoint] at h
      by_cases hletter : c = 'e' ∨ c = 'E'
      · rw [if_pos hletter] at h
        exact isFinite_scanExponent h
      · rw [if_neg hletter] at h
        exact plain h

theorem isFinite_scanUnsigned
    (h : (scanUnsigned negative text offset).reading = .ok number) : number.IsFinite := by
  unfold scanUnsigned at h
  split at h
  · cases h
  · split at h
    · split at h
      · split at h
        · cases h
        · exact isFinite_scanAfterWhole h
      · exact isFinite_scanAfterWhole h
    · split at h
      · exact isFinite_scanAfterWhole h
      · cases h

theorem isFinite_scanNumber (h : (scanNumber text offset).reading = .ok number) :
    number.IsFinite := by
  unfold scanNumber at h
  split at h
  · exact isFinite_scanUnsigned h
  · exact isFinite_scanUnsigned h

end Lexeme

/-! ## Laid out numbers -/

mutual

/-- The numbers that stand anywhere in a source. -/
def Source.numbers : Source → List Number
  | .scalar _ _ (.number n) => [n]
  | .array _ items => items.numbers
  | .object _ entries => entries.numbers
  | _ => []

def Items.numbers : Items → List Number
  | .item value rest => value.numbers ++ rest.numbers
  | _ => []

def Entries.numbers : Entries → List Number
  | .entry _ value rest => value.numbers ++ rest.numbers
  | _ => []

end

namespace Entries

variable {entries : Entries}

theorem numbers_without_subset (names : List String) (entries : Entries) :
    (entries.without names).numbers ⊆ entries.numbers := by
  fun_induction Entries.without with
  | case1 => next ih => exact List.subset_append_of_subset_right _ ih
  | case2 =>
    next ih =>
    exact List.append_subset.mpr
      ⟨List.subset_append_left _ _, List.subset_append_of_subset_right _ ih⟩
  | case3 =>
    next ih =>
    exact List.append_subset.mpr
      ⟨List.subset_append_left _ _, List.subset_append_of_subset_right _ ih⟩
  | case4 other _ => exact List.Subset.refl _

end Entries

namespace Source

open Lexeme

/-- All numbers that stand in a laid out part are finite. -/
abbrev AllFinite (numbers : List Number) : Prop := ∀ n ∈ numbers, n.IsFinite

theorem allFinite_ofWord {value : Scalar} (h : ∀ n, value ≠ .number n) (word : List Char)
    (first : Char) (rest : List Char) (offset : Nat) :
    AllFinite (ofWord value word first rest offset).1.numbers := by
  unfold ofWord
  split
  · cases value with
    | number n => exact absurd rfl (h n)
    | _ => exact List.forall_mem_nil _
  · exact List.forall_mem_nil _

theorem allFinite_ofScan_number (text : List Char) (first : Char) (offset : Nat) :
    AllFinite (ofScan .number (scanNumber text offset) first offset).1.numbers := by
  unfold ofScan
  split
  · next n after hreading _ =>
    intro number hmem
    obtain rfl := List.mem_singleton.mp hmem
    exact isFinite_scanNumber hreading
  all_goals exact List.forall_mem_nil _

theorem allFinite_ofScan_string (scan : Scan String) (first : Char) (offset : Nat) :
    AllFinite (ofScan .string scan first offset).1.numbers := by
  unfold ofScan
  split
  all_goals exact List.forall_mem_nil _

theorem numbers_nextItem {first : Bool} {text : List Char} {offset : Nat} {gone : Laid Items}
    (h : nextItem first text offset = .error gone) : gone.1.numbers = [] := by
  simp only [nextItem] at h
  split at h
  · cases h
    rfl
  · split_ifs at h
    · cases h
      rfl
    · split at h
      · cases h
        rfl
      · split_ifs at h
        cases h
        rfl
    · cases h
      rfl

theorem numbers_nextEntry {first : Bool} {text : List Char} {offset : Nat} {gone : Laid Entries}
    (h : nextEntry first text offset = .error gone) : gone.1.numbers = [] := by
  simp only [nextEntry] at h
  split at h
  · cases h
    rfl
  · split_ifs at h
    · cases h
      rfl
    · split at h
      · cases h
        rfl
      · split_ifs at h
        cases h
        rfl
    · cases h
      rfl

theorem numbers_keyAt {text : List Char} {offset : Nat} {entries : Entries}
    (h : keyAt text offset = .error entries) : entries.numbers = [] := by
  simp only [keyAt] at h
  split at h
  · cases h
    rfl
  · split at h
    · cases h
      rfl
    · split_ifs at h
      cases h
      rfl

/-- By induction on the fuel, which every call inside has less of. -/
theorem allFinite_at (fuel : Nat) :
    (∀ text offset, AllFinite (valueAt fuel text offset).1.numbers) ∧
    (∀ first text offset, AllFinite (itemsAt fuel first text offset).1.numbers) ∧
    (∀ first text offset, AllFinite (entriesAt fuel first text offset).1.numbers) := by
  induction fuel with
  | zero =>
    refine ⟨fun text offset => ?_, fun first text offset => ?_, fun first text offset => ?_⟩
    · exact List.forall_mem_nil _
    · exact List.forall_mem_nil _
    · exact List.forall_mem_nil _
  | succ fuel ih =>
    obtain ⟨hvalue, hitems, hentries⟩ := ih
    refine ⟨fun text offset => ?_, fun first text offset => ?_, fun first text offset => ?_⟩
    · cases text with
      | nil => exact List.forall_mem_nil _
      | cons c rest =>
        simp only [valueAt]
        split_ifs
        · exact allFinite_ofWord (by simp) _ _ _ _
        · exact allFinite_ofWord (by simp) _ _ _ _
        · exact allFinite_ofWord (by simp) _ _ _ _
        · exact allFinite_ofScan_number _ _ _
        · exact allFinite_ofScan_string _ _ _
        · exact hitems true rest (offset + 1)
        · exact hentries true rest (offset + 1)
        · exact List.forall_mem_nil _
    · simp only [itemsAt]
      split
      · next gone hgone =>
        rw [numbers_nextItem hgone]
        exact List.forall_mem_nil _
      · next here _ =>
        have hfirst := hvalue here.text here.offset
        split
        · next value hat =>
          rw [hat] at hfirst
          exact List.forall_mem_append.mpr ⟨hfirst, List.forall_mem_nil _⟩
        · next value after hat =>
          rw [hat] at hfirst
          exact List.forall_mem_append.mpr ⟨hfirst, hitems false after.text after.offset⟩
    · simp only [entriesAt]
      split
      · next gone hgone =>
        rw [numbers_nextEntry hgone]
        exact List.forall_mem_nil _
      · split
        · split
          · next entries hkey =>
            rw [numbers_keyAt hkey]
            exact List.forall_mem_nil _
          · next key there _ =>
            have hfirst := hvalue there.text there.offset
            split
            · next value hat =>
              rw [hat] at hfirst
              exact List.forall_mem_append.mpr ⟨hfirst, List.forall_mem_nil _⟩
            · next value after hat =>
              rw [hat] at hfirst
              exact List.forall_mem_append.mpr ⟨hfirst, hentries false after.text after.offset⟩
        · exact List.forall_mem_nil _

theorem allFinite_ofText (text : String) : AllFinite (ofText text).numbers :=
  (allFinite_at _).1 _ _

end Source

end SchemaDoc
