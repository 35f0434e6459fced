import SchemaDoc.Json.Printer
import SchemaDoc.Proofs.Json.FromText
import SchemaDoc.Proofs.Reading.Values
import SchemaDoc.Proofs.Source.Layout

/-!
# How printed text is laid out

The text of a value is laid out as the value in memory, but for places, whether it is printed
compactly or one part a line. The digits of an integer are gathered to the integer again as long as
it has 64 bits; floating point numbers are left out, since their digits are not always read back to
the same number.
-/
namespace SchemaDoc

namespace Lexeme

/-! ## Numbers -/

/-- What follows a number does not go on with it. -/
def EndsNumber (rest : List Char) : Prop :=
  ∀ c ∈ rest.head?, isDigit c = false ∧ c ≠ '.' ∧ c ≠ 'e' ∧ c ≠ 'E'

theorem isDigit_of_mem_toDigits {n : Nat} {c : Char} (h : c ∈ Nat.toDigits 10 n) :
    isDigit c = true := Nat.isDigit_of_mem_toDigits (by decide) (by decide) h

theorem digitValue_digitChar {d : Nat} (h : d < 10) : digitValue d.digitChar = d :=
  Nat.toNat_digitChar_sub_48_of_lt_ten h

/-- The digits of a number are gathered to the number. -/
theorem gatherWhole_toDigits {n : Nat} (h : n ≤ greatestSignificand) (rest : List Char) :
    gatherWhole 0 (Nat.toDigits 10 n ++ rest) = gatherWhole n rest := by
  induction n using Nat.strongRecOn generalizing rest with
  | ind n ih =>
    by_cases small : n < 10
    · rw [Nat.toDigits_of_lt_base small, List.singleton_append, gatherWhole,
        digitValue_digitChar small]
      simp [h]
    · have digits := Nat.toDigits_of_base_le (b := 10) (by decide) (Nat.not_lt.mp small)
      have last : digitValue (n % 10).digitChar = n % 10 := digitValue_digitChar (by omega)
      have whole : n / 10 * 10 + n % 10 = n := by omega
      rw [digits, List.append_assoc, ih (n / 10) (by omega) (by omega), List.singleton_append,
        gatherWhole, last, whole]
      simp [h]

/-- Only zero begins with the digit zero. -/
theorem exists_toDigits_eq_cons {n : Nat} (h : 0 < n) :
    ∃ c rest, Nat.toDigits 10 n = c :: rest ∧ c ≠ '0' := by
  induction n using Nat.strongRecOn with
  | ind n ih =>
    by_cases small : n < 10
    · refine ⟨n.digitChar, [], Nat.toDigits_of_lt_base small, ?_⟩
      simpa using Nat.pos_iff_ne_zero.mp h
    · obtain ⟨c, rest, digits, ne⟩ := ih (n / 10) (by omega) (by omega)
      refine ⟨c, rest ++ [(n % 10).digitChar], ?_, ne⟩
      rw [Nat.toDigits_of_base_le (by decide) (Nat.not_lt.mp small), digits, List.cons_append]

variable {rest : List Char}

theorem scanAfterWhole_of_endsNumber (ends : EndsNumber rest) (negative : Bool) {n : Nat}
    (h : n ≤ greatestSignificand) (offset : Nat) :
    scanAfterWhole negative (Nat.toDigits 10 n) rest offset =
      ⟨inRange (integerValue negative n) offset, .ok ⟨rest, offset⟩⟩ := by
  have gathered : gatherWhole 0 (Nat.toDigits 10 n) = (n, 0) := by
    simpa [gatherWhole] using gatherWhole_toDigits h []
  unfold scanAfterWhole
  rw [gathered]
  cases rest with
  | nil => rfl
  | cons c rest =>
    obtain ⟨-, point, lower, upper⟩ := ends c rfl
    simp [point, lower, upper]

theorem takeWhile_isDigit (ends : EndsNumber rest) (n : Nat) :
    (Nat.toDigits 10 n ++ rest).takeWhile isDigit = Nat.toDigits 10 n := by
  have none : rest.takeWhile isDigit = [] := by
    cases rest with
    | nil => rfl
    | cons c rest => simp [(ends c rfl).1]
  rw [List.takeWhile_append_of_pos fun c => isDigit_of_mem_toDigits, none, List.append_nil]

theorem dropWhile_isDigit (ends : EndsNumber rest) (n : Nat) :
    (Nat.toDigits 10 n ++ rest).dropWhile isDigit = rest := by
  rw [List.dropWhile_append_of_pos fun c => isDigit_of_mem_toDigits]
  cases rest with
  | nil => rfl
  | cons c rest => simp [(ends c rfl).1]

theorem scanUnsigned_toDigits (ends : EndsNumber rest) (negative : Bool) {n : Nat}
    (h : n ≤ greatestSignificand) (offset : Nat) :
    ∃ after, scanUnsigned negative (Nat.toDigits 10 n ++ rest) offset =
      ⟨inRange (integerValue negative n) after, .ok ⟨rest, after⟩⟩ := by
  rcases Nat.eq_zero_or_pos n with rfl | pos
  · refine ⟨offset + 1, ?_⟩
    have scanned := scanAfterWhole_of_endsNumber ends negative h (offset + 1)
    rw [Nat.toDigits_zero] at scanned ⊢
    cases rest with
    | nil => exact scanned
    | cons c rest =>
      have ends := (ends c rfl).1
      simpa [scanUnsigned, ends] using scanned
  · obtain ⟨c, others, digits, ne⟩ := exists_toDigits_eq_cons pos
    have digit : isDigit c = true := isDigit_of_mem_toDigits (digits ▸ List.mem_cons_self)
    refine ⟨offset + (Nat.toDigits 10 n).length, ?_⟩
    rw [← scanAfterWhole_of_endsNumber ends negative h]
    have taken := takeWhile_isDigit ends n
    have dropped := dropWhile_isDigit ends n
    rw [digits, List.cons_append] at taken dropped ⊢
    simp only [scanUnsigned, if_neg ne, digit, if_true, taken, dropped]

/-- An integer of 64 bits is scanned from its text. -/
theorem scanNumber_chars (ends : EndsNumber rest) {n : Int} (least : -2 ^ 63 ≤ n)
    (greatest : n < 2 ^ 64) (offset : Nat) :
    ∃ after, scanNumber ((Number.integer n).chars ++ rest) offset =
      ⟨.ok (.integer n), .ok ⟨rest, after⟩⟩ := by
  have fits : n.natAbs ≤ greatestSignificand := by
    have bound : greatestSignificand = 18446744073709551615 := by decide
    omega
  by_cases negative : n < 0
  · obtain ⟨after, scanned⟩ := scanUnsigned_toDigits ends true fits (offset + 1)
    refine ⟨after, ?_⟩
    have value : integerValue true n.natAbs = some (.integer n) := by
      have range : 0 < n.natAbs ∧ n.natAbs ≤ Nat.pow 2 63 := by
        have bound : Nat.pow 2 63 = 9223372036854775808 := by decide
        omega
      have whole : -(n.natAbs : Int) = n := by omega
      rw [integerValue, if_neg (by decide), if_pos range, whole]
    rw [value] at scanned
    rw [Number.chars, if_pos negative, List.cons_append]
    exact scanned
  · obtain ⟨after, scanned⟩ := scanUnsigned_toDigits ends false fits offset
    refine ⟨after, ?_⟩
    have value : integerValue false n.natAbs = some (.integer n) := by
      have whole : (n.natAbs : Int) = n := by omega
      rw [integerValue, if_pos (by decide), whole]
    rw [value] at scanned
    obtain ⟨c, others, digits⟩ := List.exists_cons_of_ne_nil (Nat.toDigits_ne_nil (b := 10)
      (n := n.natAbs))
    have digit : isDigit c = true := isDigit_of_mem_toDigits (digits ▸ List.mem_cons_self)
    rw [Number.chars, if_neg negative]
    rw [digits, List.cons_append] at scanned ⊢
    unfold scanNumber
    split
    · next same =>
      obtain rfl := (List.cons.inj same).1
      cases digit
    · exact scanned

/-! ## Strings -/

theorem unitValue?_hexDigit : ∀ n < 0x20,
    unitValue? '0' '0' (Json.hexDigit (n / 16)) (Json.hexDigit (n % 16)) = some n := by
  decide

/-- An escaped character is scanned as the character. -/
theorem scanString_escapedChar (c : Char) (read : List Char) (rest : List Char) (offset : Nat) :
    ∃ after, scanString (.ok (read, none)) (Json.escapedChar c ++ rest) offset =
      scanString (.ok (c :: read, none)) rest after := by
  unfold Json.escapedChar
  split
  iterate 7
    refine ⟨offset + 2, ?_⟩
    conv => lhs; unfold scanString
    rfl
  · next quote slash _ _ _ _ _ =>
    split
    · next control =>
      refine ⟨offset + 6, ?_⟩
      have value := unitValue?_hexDigit c.toNat control
      have low : ¬ (0xDC00 ≤ c.toNat ∧ c.toNat ≤ 0xDFFF) := by omega
      have high : ¬ (0xD800 ≤ c.toNat ∧ c.toNat ≤ 0xDBFF) := by omega
      have unit : Reading.pushUnit (.ok (read, none)) c.toNat (offset + 6) =
          .ok (c :: read, none) := by
        simp only [Reading.pushUnit, if_neg low, if_neg high, Char.ofNat_toNat]
      conv => lhs; unfold scanString
      simp only [List.cons_append, List.nil_append, value, unit]
      rfl
    · next printable =>
      refine ⟨offset + c.utf8Size, ?_⟩
      conv => lhs; unfold scanString
      have quote : c ≠ '"' := fun same => quote same
      have slash : c ≠ '\\' := fun same => slash same
      simp only [List.cons_append, List.nil_append, if_neg quote, if_neg slash, if_neg printable]
      rfl

/-- A printed string is scanned as the string. -/
theorem scanString_escaped (chars read rest : List Char) (offset : Nat) :
    ∃ after, scanString (.ok (read, none)) (chars.flatMap Json.escapedChar ++ '"' :: rest) offset =
      ⟨.ok (String.ofList (read.reverse ++ chars)), .ok ⟨rest, after⟩⟩ := by
  induction chars generalizing read offset with
  | nil =>
    refine ⟨offset + 1, ?_⟩
    rw [List.flatMap_nil, List.nil_append, List.append_nil]
    unfold scanString
    rfl
  | cons c chars ih =>
    obtain ⟨between, scanned⟩ := scanString_escapedChar c read
      (chars.flatMap Json.escapedChar ++ '"' :: rest) offset
    obtain ⟨after, hafter⟩ := ih (c :: read) between
    refine ⟨after, ?_⟩
    rw [List.flatMap_cons, List.append_assoc, scanned, hafter, List.reverse_cons,
      List.append_assoc, List.singleton_append]

/-! ## Blanks -/

/-- Characters that may stand between lexemes. -/
def Blank (chars : List Char) : Prop := ∀ c ∈ chars, isSpace c = true

theorem skipSpace_blank {blank : List Char} (h : Blank blank) {c : Char} (hc : isSpace c = false)
    (rest : List Char) (offset : Nat) :
    ∃ after, skipSpace (blank ++ c :: rest) offset = ⟨c :: rest, after⟩ := by
  induction blank generalizing offset with
  | nil => exact ⟨offset, skipSpace_of_not_space hc rest offset⟩
  | cons b blank ih =>
    obtain ⟨first, others⟩ := List.forall_mem_cons.mp h
    obtain ⟨after, skipped⟩ := ih others (offset + 1)
    refine ⟨after, ?_⟩
    rw [List.cons_append, skipSpace, first]
    exact skipped

theorem endsNumber_blank {blank : List Char} (h : Blank blank) {c : Char}
    (hc : c ∈ [',', ']', '}']) (rest : List Char) : EndsNumber (blank ++ c :: rest) := by
  intro d hd
  cases blank with
  | nil =>
    obtain rfl : c = d := by simpa using hd
    simp only [List.mem_cons, List.not_mem_nil, or_false] at hc
    rcases hc with rfl | rfl | rfl <;> decide
  | cons b blank =>
    obtain rfl : b = d := by simpa using hd
    have space := h b List.mem_cons_self
    simp only [isSpace, Bool.or_eq_true, beq_iff_eq, or_assoc] at space
    rcases space with rfl | rfl | rfl | rfl <;> decide

end Lexeme

open Lexeme

/-! ## Values -/

/-- All numbers in the value are integers of 64 bits. -/
inductive Json.Integral : Json → Prop
  | null : Integral .null
  | bool (b : Bool) : Integral (.bool b)
  | number {n : Int} : -2 ^ 63 ≤ n → n < 2 ^ 64 → Integral (.number (.integer n))
  | string (text : String) : Integral (.string text)
  | array {items : List Json} : (∀ item ∈ items, Integral item) → Integral (.array items)
  | object {members : Members} : (∀ member ∈ members, Integral member.2) →
      Integral (.object members)

/-- The characters are laid out as the value in front of all that does not go on with a number. -/
structure Source.Prints (value : Json) (chars : List Char) : Prop where
  starts : ∃ c rest, chars = c :: rest ∧ isSpace c = false ∧ c ≠ ']'
  lays (rest : List Char) (offset fuel : Nat) : EndsNumber rest → chars.length ≤ fuel →
    ∃ source after, valueAt fuel (chars ++ rest) offset = (source, some ⟨rest, after⟩) ∧
      (ofJson value).Same source

namespace Source

theorem prints_null : Prints .null ['n', 'u', 'l', 'l'] where
  starts := ⟨_, _, rfl, by decide, by decide⟩
  lays rest offset fuel _ hfuel := by
    cases fuel with
    | zero => cases hfuel
    | succ fuel => exact ⟨_, _, rfl, rfl⟩

theorem prints_bool (b : Bool) : Prints (.bool b) (Json.bool b).chars where
  starts := by cases b <;> exact ⟨_, _, rfl, by decide, by decide⟩
  lays rest offset fuel _ hfuel := by
    cases fuel with
    | zero => cases b <;> cases hfuel
    | succ fuel => cases b <;> exact ⟨_, _, rfl, rfl⟩

theorem prints_string (text : String) : Prints (.string text) (Json.quoted text) where
  starts := ⟨_, _, rfl, by decide, by decide⟩
  lays rest offset fuel _ hfuel := by
    obtain ⟨after, scanned⟩ := scanString_escaped text.toList [] rest (offset + 1)
    cases fuel with
    | zero => cases hfuel
    | succ fuel =>
      refine ⟨.scalar offset after (.string text), after, ?_, rfl⟩
      rw [Json.quoted, List.cons_append, List.append_assoc, List.singleton_append]
      simp only [valueAt]
      rw [if_neg (by decide), if_neg (by decide), if_neg (by decide), if_neg (by decide),
        if_pos (by decide)]
      simp only [Reading.start, scanned, List.reverse_nil, List.nil_append, String.ofList_toList]
      rfl

theorem exists_chars_integer (n : Int) :
    ∃ c rest, (Number.integer n).chars = c :: rest ∧ (c = '-' ∨ isDigit c = true) := by
  obtain ⟨c, rest, digits⟩ := List.exists_cons_of_ne_nil (Nat.toDigits_ne_nil (b := 10)
    (n := n.natAbs))
  rw [Number.chars]
  split
  · exact ⟨'-', _, rfl, .inl rfl⟩
  · exact ⟨c, rest, digits, .inr (isDigit_of_mem_toDigits (digits ▸ List.mem_cons_self))⟩

theorem prints_number {n : Int} (least : -2 ^ 63 ≤ n) (greatest : n < 2 ^ 64) :
    Prints (.number (.integer n)) (Number.integer n).chars := by
  obtain ⟨c, others, chars, first⟩ := exists_chars_integer n
  have other : ∀ d : Char, d ≠ '-' → isDigit d = false → c ≠ d := by
    rintro d sign digit rfl
    rcases first with rfl | first
    · exact sign rfl
    · rw [digit] at first
      cases first
  have space : isSpace c = false := by
    simp [isSpace, other ' ' (by decide) (by decide), other '\t' (by decide) (by decide),
      other '\n' (by decide) (by decide), other '\r' (by decide) (by decide)]
  constructor
  · exact ⟨c, others, chars, space, other ']' (by decide) (by decide)⟩
  · intro rest offset fuel ends hfuel
    obtain ⟨after, scanned⟩ := scanNumber_chars ends least greatest offset
    refine ⟨.scalar offset after (.number (.integer n)), after, ?_, rfl⟩
    rw [chars] at hfuel scanned ⊢
    rw [List.cons_append] at scanned ⊢
    cases fuel with
    | zero => cases hfuel
    | succ fuel =>
      simp only [valueAt]
      rw [if_neg (other 'n' (by decide) (by decide)), if_neg (other 't' (by decide) (by decide)),
        if_neg (other 'f' (by decide) (by decide)), if_pos first]
      simp only [scanned, ofScan]

end Source

/-! ## Arrays -/

/-- The characters are laid out as the items up to the end of their array. -/
structure Items.Prints (first : Bool) (values : List Json) (chars : List Char) : Prop where
  pos : 0 < chars.length
  ends : first = false → ∀ rest, EndsNumber (chars ++ rest)
  lays (rest : List Char) (offset fuel : Nat) : chars.length ≤ fuel →
    ∃ items after, Source.itemsAt fuel first (chars ++ rest) offset =
      (items, some ⟨rest, after⟩) ∧ items.unplaced = (Items.ofList values).unplaced

namespace Items

/-- What stands before a part: a comma unless it is the first one, and blanks. -/
def lead (first : Bool) (blank : List Char) : List Char :=
  if first then blank else ',' :: blank

theorem prints_close (first : Bool) {blank : List Char} (h : Blank blank) :
    Prints first [] (blank ++ [']']) where
  pos := by simp
  ends _ rest := by
    rw [List.append_assoc]
    exact endsNumber_blank h (by decide) rest
  lays rest offset fuel hfuel := by
    obtain ⟨after, skipped⟩ := skipSpace_blank h (c := ']') (by decide) rest offset
    cases fuel with
    | zero => simp at hfuel
    | succ fuel =>
      refine ⟨.close (after + 1), after + 1, ?_, rfl⟩
      rw [List.append_assoc, List.singleton_append]
      simp only [Source.itemsAt, Source.nextItem, skipped]
      rfl

theorem nextItem_lead (first : Bool) {blank : List Char} (h : Blank blank) {c : Char}
    (hc : isSpace c = false) (hclose : c ≠ ']') (rest : List Char) (offset : Nat) :
    ∃ after, Source.nextItem first (lead first blank ++ c :: rest) offset =
      .ok ⟨c :: rest, after⟩ := by
  cases first with
  | true =>
    obtain ⟨after, skipped⟩ := skipSpace_blank h hc rest offset
    refine ⟨after, ?_⟩
    simp only [lead, if_true, Source.nextItem, skipped]
    rw [if_neg hclose]
  | false =>
    obtain ⟨after, skipped⟩ := skipSpace_blank h hc rest (offset + 1)
    refine ⟨after, ?_⟩
    simp only [lead, Bool.false_eq_true, if_false, List.cons_append, Source.nextItem]
    rw [skipSpace_of_not_space (by decide)]
    simp only [skipped]
    rw [if_neg (by decide), if_neg hclose, if_pos trivial]

theorem prints_item (first : Bool) {blank : List Char} (h : Blank blank) {value : Json}
    {values : List Json} {chars others : List Char} (hvalue : Source.Prints value chars)
    (hothers : Prints false values others) :
    Prints first (value :: values) (lead first blank ++ (chars ++ others)) where
  pos := by
    have := hothers.pos
    simp only [List.length_append]
    omega
  ends := by
    rintro rfl rest
    exact endsNumber_blank (List.forall_mem_nil _) (by decide) _
  lays rest offset fuel hfuel := by
    obtain ⟨c, tail, rfl, hc, hclose⟩ := hvalue.starts
    have pos := hothers.pos
    simp only [List.length_append, List.length_cons] at hfuel
    cases fuel with
    | zero => omega
    | succ fuel =>
      obtain ⟨here, hnext⟩ := nextItem_lead first h hc hclose (tail ++ (others ++ rest)) offset
      obtain ⟨source, there, hsource, same⟩ := hvalue.lays (others ++ rest) here fuel
        (hothers.ends rfl rest) (by rw [List.length_cons]; omega)
      obtain ⟨items, after, hitems, inner⟩ := hothers.lays rest there fuel (by omega)
      refine ⟨.item source items, after, ?_, congrArg₂ Items.item same inner⟩
      simp only [List.cons_append, List.append_assoc] at hsource ⊢
      simp only [Source.itemsAt, hnext, hsource, hitems]

/-- Items with commas between them, as they go on after the first one. -/
theorem prints_rest {blank closing : List Char} (h : Blank blank) (hclosing : Blank closing)
    {values : List Json} {texts : List (List Char)}
    (each : List.Forall₂ Source.Prints values texts) :
    Prints false values (texts.flatMap (fun text => ',' :: blank ++ text) ++ (closing ++ [']'])) := by
  induction each with
  | nil => exact prints_close false hclosing
  | cons first _ ih =>
    have := prints_item false h first ih
    simpa [lead] using this

end Items

/-- Parts between brackets: with commas and blanks between them, and closed at once if there are
none. -/
def Source.enclosed (opening closing : Char) (blank last : List Char) :
    List (List Char) → List Char
  | [] => [opening, closing]
  | part :: parts =>
    opening :: (blank ++ (part ++ (parts.flatMap (fun part => ',' :: blank ++ part) ++
      (last ++ [closing]))))

namespace Source

theorem prints_array_of_items {values : List Json} {chars : List Char}
    (h : Items.Prints true values chars) : Prints (.array values) ('[' :: chars) where
  starts := ⟨_, _, rfl, by decide, by decide⟩
  lays rest offset fuel _ hfuel := by
    cases fuel with
    | zero => cases hfuel
    | succ fuel =>
      obtain ⟨items, after, hitems, inner⟩ :=
        h.lays rest (offset + 1) fuel (Nat.le_of_succ_le_succ hfuel)
      refine ⟨.array offset items, after, ?_, congrArg (Source.array 0) inner⟩
      rw [List.cons_append]
      simp only [valueAt]
      rw [if_neg (by decide), if_neg (by decide), if_neg (by decide), if_neg (by decide),
        if_neg (by decide), if_pos (by decide), hitems]

theorem prints_array {blank last : List Char} (h : Blank blank) (hlast : Blank last)
    {values : List Json} {texts : List (List Char)} (each : List.Forall₂ Prints values texts) :
    Prints (.array values) (enclosed '[' ']' blank last texts) := by
  cases each with
  | nil => exact prints_array_of_items (Items.prints_close true (List.forall_mem_nil _))
  | cons first others =>
    exact prints_array_of_items (Items.prints_item true h first (Items.prints_rest h hlast others))

end Source

/-! ## Objects -/

/-- The characters are laid out as the members up to the end of their object. -/
structure Entries.Prints (first : Bool) (members : Members) (chars : List Char) : Prop where
  pos : 0 < chars.length
  ends : first = false → ∀ rest, EndsNumber (chars ++ rest)
  lays (rest : List Char) (offset fuel : Nat) : chars.length ≤ fuel →
    ∃ entries after, Source.entriesAt fuel first (chars ++ rest) offset =
      (entries, some ⟨rest, after⟩) ∧ entries.unplaced = (Entries.ofList members).unplaced

namespace Entries

open Items (lead)

theorem prints_close (first : Bool) {blank : List Char} (h : Blank blank) :
    Prints first [] (blank ++ ['}']) where
  pos := by simp
  ends _ rest := by
    rw [List.append_assoc]
    exact endsNumber_blank h (by decide) rest
  lays rest offset fuel hfuel := by
    obtain ⟨after, skipped⟩ := skipSpace_blank h (c := '}') (by decide) rest offset
    cases fuel with
    | zero => simp at hfuel
    | succ fuel =>
      refine ⟨.close (after + 1), after + 1, ?_, rfl⟩
      rw [List.append_assoc, List.singleton_append]
      simp only [Source.entriesAt, Source.nextEntry, skipped]
      rfl

theorem nextEntry_lead (first : Bool) {blank : List Char} (h : Blank blank) (rest : List Char)
    (offset : Nat) :
    ∃ after, Source.nextEntry first (lead first blank ++ '"' :: rest) offset =
      .ok ⟨'"' :: rest, after⟩ := by
  cases first with
  | true =>
    obtain ⟨after, skipped⟩ := skipSpace_blank h (c := '"') (by decide) rest offset
    refine ⟨after, ?_⟩
    simp only [lead, if_true, Source.nextEntry, skipped]
    rw [if_neg (by decide)]
  | false =>
    obtain ⟨after, skipped⟩ := skipSpace_blank h (c := '"') (by decide) rest (offset + 1)
    refine ⟨after, ?_⟩
    simp only [lead, Bool.false_eq_true, if_false, List.cons_append, Source.nextEntry]
    rw [skipSpace_of_not_space (by decide)]
    simp only [skipped]
    rw [if_neg (by decide), if_pos trivial, if_neg (by decide)]

/-- A printed name is followed by its colon and, after blanks, its value. -/
theorem keyAt_escaped (name : String) {gap : List Char} (h : Blank gap) {c : Char}
    (hc : isSpace c = false) (rest : List Char) (offset : Nat) :
    ∃ key after, Source.keyAt
      (name.toList.flatMap Json.escapedChar ++ '"' :: ':' :: (gap ++ c :: rest)) offset =
        .ok (key, ⟨c :: rest, after⟩) ∧ key.name = .ok name := by
  obtain ⟨between, scanned⟩ :=
    scanString_escaped name.toList [] (':' :: (gap ++ c :: rest)) offset
  obtain ⟨after, skipped⟩ := skipSpace_blank h hc rest (between + 1)
  refine ⟨⟨.ok name, name.toList.flatMap Json.escapedChar ++ '"' :: ':' :: (gap ++ c :: rest),
    Source.keyStop ⟨':' :: (gap ++ c :: rest), between⟩⟩, after, ?_, rfl⟩
  simp only [Source.keyAt, Reading.start, scanned, List.reverse_nil, List.nil_append,
    String.ofList_toList]
  rw [skipSpace_of_not_space (by decide)]
  simp only [if_true, skipped]

/-- A member as it is printed. -/
def memberChars (gap : List Char) (name : String) (chars : List Char) : List Char :=
  Json.quoted name ++ ':' :: (gap ++ chars)

theorem prints_entry (first : Bool) {blank gap : List Char} (h : Blank blank) (hgap : Blank gap)
    {member : String × Json} {members : Members} {chars others : List Char}
    (hvalue : Source.Prints member.2 chars) (hothers : Prints false members others) :
    Prints first (member :: members)
      (lead first blank ++ (memberChars gap member.1 chars ++ others)) where
  pos := by
    have := hothers.pos
    simp only [List.length_append]
    omega
  ends := by
    rintro rfl rest
    exact endsNumber_blank (List.forall_mem_nil _) (by decide) _
  lays rest offset fuel hfuel := by
    obtain ⟨name, value⟩ := member
    obtain ⟨c, tail, rfl, hc, -⟩ := hvalue.starts
    have pos := hothers.pos
    simp only [memberChars, Json.quoted, List.length_append, List.length_cons] at hfuel
    cases fuel with
    | zero => omega
    | succ fuel =>
      obtain ⟨here, hnext⟩ := nextEntry_lead first h (name.toList.flatMap Json.escapedChar ++
        '"' :: ':' :: (gap ++ c :: (tail ++ (others ++ rest)))) offset
      obtain ⟨key, start, hkey, hname⟩ :=
        keyAt_escaped name hgap hc (tail ++ (others ++ rest)) (here + 1)
      obtain ⟨source, there, hsource, same⟩ := hvalue.lays (others ++ rest) start fuel
        (hothers.ends rfl rest) (by rw [List.length_cons]; omega)
      obtain ⟨entries, after, hentries, inner⟩ := hothers.lays rest there fuel (by omega)
      refine ⟨.entry key source entries, after, ?_, ?_⟩
      · simp only [memberChars, Json.quoted, List.cons_append, List.append_assoc,
          List.nil_append] at hsource ⊢
        simp only [Source.entriesAt, hnext, hkey, hsource, hentries]
      · have named : key.unplaced = (Key.ofName name).unplaced := by
          rw [Key.unplaced, hname]
          rfl
        simp only [unplaced, ofList, named, inner]
        rw [same]

theorem prints_rest {blank gap closing : List Char} (h : Blank blank) (hgap : Blank gap)
    (hclosing : Blank closing) {members : Members} {texts : List (List Char)}
    (each : List.Forall₂ (fun member text => ∃ chars, text = memberChars gap member.1 chars ∧
      Source.Prints member.2 chars) members texts) :
    Prints false members
      (texts.flatMap (fun text => ',' :: blank ++ text) ++ (closing ++ ['}'])) := by
  induction each with
  | nil => exact prints_close false hclosing
  | cons first _ ih =>
    obtain ⟨chars, rfl, hvalue⟩ := first
    have := prints_entry false h hgap hvalue ih
    simpa [lead] using this

end Entries

namespace Source

theorem prints_object_of_entries {members : Members} {chars : List Char}
    (h : Entries.Prints true members chars) : Prints (.object members) ('{' :: chars) where
  starts := ⟨_, _, rfl, by decide, by decide⟩
  lays rest offset fuel _ hfuel := by
    cases fuel with
    | zero => cases hfuel
    | succ fuel =>
      obtain ⟨entries, after, hentries, inner⟩ :=
        h.lays rest (offset + 1) fuel (Nat.le_of_succ_le_succ hfuel)
      refine ⟨.object offset entries, after, ?_, congrArg (Source.object 0) inner⟩
      rw [List.cons_append]
      simp only [valueAt]
      rw [if_neg (by decide), if_neg (by decide), if_neg (by decide), if_neg (by decide),
        if_neg (by decide), if_neg (by decide), if_pos (by decide), hentries]

theorem prints_object {blank gap last : List Char} (h : Blank blank) (hgap : Blank gap)
    (hlast : Blank last) {members : Members} {texts : List (List Char)}
    (each : List.Forall₂ (fun member text => ∃ chars,
      text = Entries.memberChars gap member.1 chars ∧ Prints member.2 chars) members texts) :
    Prints (.object members) (enclosed '{' '}' blank last texts) := by
  cases each with
  | nil => exact prints_object_of_entries (Entries.prints_close true (List.forall_mem_nil _))
  | cons first others =>
    obtain ⟨chars, rfl, hvalue⟩ := first
    exact prints_object_of_entries
      (Entries.prints_entry true h hgap hvalue (Entries.prints_rest h hgap hlast others))

theorem Prints.same_ofText {value : Json} {chars : List Char} (h : Prints value chars) :
    (ofJson value).Same (ofText (String.ofList chars)) := by
  obtain ⟨c, rest, hchars, space, -⟩ := h.starts
  obtain ⟨source, after, laid, same⟩ :=
    h.lays [] 0 (2 * chars.length + 2) nofun (by omega)
  have skipped : skipSpace chars 0 = ⟨chars, 0⟩ := by
    rw [hchars]
    exact skipSpace_of_not_space space rest 0
  rw [List.append_nil] at laid
  simp only [ofText, String.toList_ofList, skipped, laid]
  exact same

/-! ## Printed values -/

theorem enclosed_compact (opening closing : Char) (parts : List (List Char)) :
    opening :: ([','].intercalate parts ++ [closing]) = enclosed opening closing [] [] parts := by
  cases parts with
  | nil => rfl
  | cons part parts => simp [enclosed, Json.intercalate_cons]

theorem enclosed_block (opening closing : Char) (level : Nat) (parts : List (List Char)) :
    Json.block opening closing level parts =
      enclosed opening closing (Json.lineBreak (level + 1)) (Json.lineBreak level) parts := by
  cases parts with
  | nil => rfl
  | cons part parts =>
    simp only [enclosed, Json.block, Json.intercalate_cons, List.append_assoc]

theorem blank_lineBreak (level : Nat) : Blank (Json.lineBreak level) := by
  refine List.forall_mem_cons.mpr ⟨by decide, fun c mem => ?_⟩
  rw [List.eq_of_mem_replicate mem]
  rfl

theorem prettyItems_eq_map (level : Nat) (items : List Json) :
    Json.prettyItems level items = items.map (Json.prettyChars level) := by
  induction items with
  | nil => rfl
  | cons item rest ih => rw [Json.prettyItems, ih, List.map_cons]

theorem prettyMembers_eq_map (level : Nat) (members : Members) :
    Json.prettyMembers level members = members.map fun member =>
      Entries.memberChars [' '] member.1 (member.2.prettyChars level) := by
  induction members with
  | nil => rfl
  | cons member rest ih =>
    rw [Json.prettyMembers, ih, List.map_cons]
    rfl

/-- The compact text of a value is laid out as the value. -/
theorem prints_chars {value : Json} (integral : value.Integral) : Prints value value.chars := by
  induction value using Json.induction_on_values with
  | null => exact prints_null
  | bool b => exact prints_bool b
  | number n =>
    cases integral with
    | number least greatest => exact prints_number least greatest
  | string text => exact prints_string text
  | array items ih =>
    cases integral with
    | array integral =>
      have each : List.Forall₂ Prints items (items.map Json.chars) := by
        rw [List.forall₂_map_right_iff, List.forall₂_same]
        exact fun item mem => ih item mem (integral item mem)
      rw [Json.chars, Json.itemTexts_eq_map, enclosed_compact]
      exact prints_array (List.forall_mem_nil _) (List.forall_mem_nil _) each
  | object members ih =>
    cases integral with
    | object integral =>
      have each : List.Forall₂ (fun member text => ∃ chars,
          text = Entries.memberChars [] member.1 chars ∧ Prints member.2 chars) members
          (members.map fun member => Json.quoted member.1 ++ ':' :: member.2.chars) := by
        rw [List.forall₂_map_right_iff, List.forall₂_same]
        exact fun member mem => ⟨member.2.chars, rfl, ih member mem (integral member mem)⟩
      rw [Json.chars, Json.memberTexts_eq_map, enclosed_compact]
      exact prints_object (List.forall_mem_nil _) (List.forall_mem_nil _)
        (List.forall_mem_nil _) each

/-- So is the text that has one part a line. -/
theorem prints_prettyChars {value : Json} (integral : value.Integral) (level : Nat) :
    Prints value (value.prettyChars level) := by
  induction value using Json.induction_on_values generalizing level with
  | null => exact prints_null
  | bool b => cases b <;> exact prints_bool _
  | number n =>
    cases integral with
    | number least greatest => exact prints_number least greatest
  | string text => exact prints_string text
  | array items ih =>
    cases integral with
    | array integral =>
      have each : List.Forall₂ Prints items (items.map (Json.prettyChars (level + 1))) := by
        rw [List.forall₂_map_right_iff, List.forall₂_same]
        exact fun item mem => ih item mem (integral item mem) (level + 1)
      rw [Json.prettyChars, prettyItems_eq_map, enclosed_block]
      exact prints_array (blank_lineBreak _) (blank_lineBreak _) each
  | object members ih =>
    cases integral with
    | object integral =>
      have each : List.Forall₂ (fun member text => ∃ chars,
          text = Entries.memberChars [' '] member.1 chars ∧ Prints member.2 chars) members
          (members.map fun member =>
            Entries.memberChars [' '] member.1 (member.2.prettyChars (level + 1))) := by
        rw [List.forall₂_map_right_iff, List.forall₂_same]
        exact fun member mem => ⟨_, rfl, ih member mem (integral member mem) (level + 1)⟩
      have gap : Blank [' '] := List.forall_mem_singleton.mpr rfl
      rw [Json.prettyChars, prettyMembers_eq_map, enclosed_block]
      exact prints_object (blank_lineBreak _) gap (blank_lineBreak _) each

theorem same_ofText_compact {value : Json} (integral : value.Integral) :
    (ofJson value).Same (ofText value.compact) := (prints_chars integral).same_ofText

theorem same_ofText_pretty {value : Json} (integral : value.Integral) :
    (ofJson value).Same (ofText value.pretty) := (prints_prettyChars integral 0).same_ofText

end Source

end SchemaDoc
