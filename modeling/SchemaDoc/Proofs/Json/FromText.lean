import Mathlib.Data.List.Perm.Basic
import SchemaDoc.Proofs.Json.Alike

/-!
# Values from their texts

The compact text of a value determines the value, up to how its numbers came about. A text is read
from the front: the first character tells the kind of value, quoted strings and brackets show where
they end, and a number ends where no character of a number follows. So the key of a value determines
it up to the order of members.
-/
namespace SchemaDoc

namespace Json

/-! ## Quoted strings -/

/-- Reads one written character of a quoted string. -/
def readChar : List Char → Option (Char × List Char)
  | '\\' :: '"' :: rest => some ('"', rest)
  | '\\' :: '\\' :: rest => some ('\\', rest)
  | '\\' :: 'b' :: rest => some ('\x08', rest)
  | '\\' :: 't' :: rest => some ('\t', rest)
  | '\\' :: 'n' :: rest => some ('\n', rest)
  | '\\' :: 'f' :: rest => some ('\x0c', rest)
  | '\\' :: 'r' :: rest => some ('\r', rest)
  | '\\' :: 'u' :: '0' :: '0' :: high :: low :: rest =>
    ((List.range 0x20).find? fun n => hexDigit (n / 16) = high ∧ hexDigit (n % 16) = low).map
      fun n => (Char.ofNat n, rest)
  | c :: rest => some (c, rest)
  | [] => none

theorem find?_hexDigits : ∀ n < 0x20, ((List.range 0x20).find? fun m =>
    hexDigit (m / 16) = hexDigit (n / 16) ∧ hexDigit (m % 16) = hexDigit (n % 16)) = some n := by
  decide

theorem readChar_escapedChar (c : Char) (rest : List Char) :
    readChar (escapedChar c ++ rest) = some (c, rest) := by
  unfold escapedChar
  split
  · rfl
  · rfl
  · rfl
  · rfl
  · rfl
  · rfl
  · rfl
  · next notQuote notBackslash _ _ _ _ _ =>
    split
    · next control =>
      simp only [List.cons_append, List.nil_append, readChar, find?_hexDigits c.toNat control,
        Option.map_some, Char.ofNat_toNat]
    · rw [List.singleton_append, readChar.eq_def]
      split <;> simp_all

theorem escapedChar_append_inj {c d : Char} {r s : List Char}
    (h : escapedChar c ++ r = escapedChar d ++ s) : c = d ∧ r = s := by
  have read := congrArg readChar h
  rw [readChar_escapedChar, readChar_escapedChar] at read
  simpa using read

theorem escapedChar_ne_quote (c : Char) (r s : List Char) : escapedChar c ++ r ≠ '"' :: s := by
  intro h
  have read := congrArg readChar h
  have quote : readChar ('"' :: s) = some ('"', s) := rfl
  rw [readChar_escapedChar, quote] at read
  cases read
  have length := congrArg List.length h
  simp [escapedChar] at length

theorem escaped_append_inj {cs ds r s : List Char}
    (h : cs.flatMap escapedChar ++ '"' :: r = ds.flatMap escapedChar ++ '"' :: s) :
    cs = ds ∧ r = s := by
  induction cs generalizing ds with
  | nil =>
    cases ds with
    | nil => exact ⟨rfl, (List.cons.inj h).2⟩
    | cons d ds =>
      rw [List.flatMap_cons, List.append_assoc] at h
      exact absurd h.symm (escapedChar_ne_quote d _ _)
  | cons c cs ih =>
    cases ds with
    | nil =>
      rw [List.flatMap_cons, List.append_assoc] at h
      exact absurd h (escapedChar_ne_quote c _ _)
    | cons d ds =>
      rw [List.flatMap_cons, List.flatMap_cons, List.append_assoc, List.append_assoc] at h
      obtain ⟨rfl, later⟩ := escapedChar_append_inj h
      obtain ⟨rfl, same⟩ := ih later
      exact ⟨rfl, same⟩

theorem quoted_append_inj {text other : String} {r s : List Char}
    (h : quoted text ++ r = quoted other ++ s) : text = other ∧ r = s := by
  simp only [quoted, List.cons_append, List.append_assoc, List.cons.injEq, true_and,
    List.nil_append] at h
  obtain ⟨same, rest⟩ := escaped_append_inj h
  exact ⟨String.toList_inj.mp same, rest⟩

end Json

/-! ## Numbers -/

/-- The characters that numbers are written with. -/
def isNumberChar (c : Char) : Bool := c.isDigit || c == '-' || c == '+' || c == '.' || c == 'e'

theorem isNumberChar_of_mem_toDigits {c : Char} {n : Nat} (h : c ∈ Nat.toDigits 10 n) :
    isNumberChar c = true := by
  simp [isNumberChar, Nat.isDigit_of_mem_toDigits (by decide) (by decide) h]

namespace Decimal

theorem isNumberChar_of_mem_significantDigits {c : Char} {x : Decimal}
    (h : c ∈ x.significantDigits) : isNumberChar c = true := by
  unfold significantDigits at h
  split at h
  · obtain rfl := List.mem_singleton.mp h
    rfl
  · have kept := (List.dropWhile_sublist _).subset (List.mem_reverse.mp h)
    exact isNumberChar_of_mem_toDigits (List.mem_reverse.mp kept)

theorem isNumberChar_of_mem_positional {c : Char} {digits : List Char} {leading : Int}
    (hdigits : ∀ d ∈ digits, isNumberChar d = true) (h : c ∈ positional digits leading) :
    isNumberChar c = true := by
  have zeros : ∀ n, c ∈ List.replicate n '0' → isNumberChar c = true := by
    intro n mem
    rw [List.eq_of_mem_replicate mem]
    rfl
  unfold positional at h
  split at h
  · rcases List.mem_cons.mp h with rfl | h
    · rfl
    · rcases List.mem_cons.mp h with rfl | h
      · rfl
      · exact (List.mem_append.mp h).elim (zeros _) (hdigits c)
  · simp only at h
    split at h
    · rcases List.mem_append.mp h with h | h
      · exact (List.mem_append.mp h).elim (hdigits c) (zeros _)
      · rcases List.mem_cons.mp h with rfl | h
        · rfl
        · obtain rfl := List.mem_singleton.mp h
          rfl
    · rcases List.mem_append.mp h with h | h
      · exact hdigits c (List.mem_of_mem_take h)
      · rcases List.mem_cons.mp h with rfl | h
        · rfl
        · exact hdigits c (List.mem_of_mem_drop h)

theorem isNumberChar_of_mem_scientific {c : Char} {digits : List Char} {leading : Int}
    (hdigits : ∀ d ∈ digits, isNumberChar d = true) (h : c ∈ scientific digits leading) :
    isNumberChar c = true := by
  have power : c ∈ 'e' :: (if leading < 0 then '-' else '+') :: Nat.toDigits 10 leading.natAbs →
      isNumberChar c = true := by
    intro mem
    rcases List.mem_cons.mp mem with rfl | mem
    · rfl
    · rcases List.mem_cons.mp mem with rfl | mem
      · split <;> rfl
      · exact isNumberChar_of_mem_toDigits mem
  match digits, hdigits, h with
  | [], _, h => exact power h
  | [d], hdigits, h =>
    rcases List.mem_cons.mp h with rfl | h
    · exact hdigits c (List.mem_singleton_self c)
    · exact power h
  | d :: e :: ds, hdigits, h =>
    rcases List.mem_cons.mp h with rfl | h
    · exact hdigits c List.mem_cons_self
    · rcases List.mem_cons.mp h with rfl | h
      · rfl
      · exact (List.mem_append.mp h).elim (fun mem => hdigits c (List.mem_cons_of_mem _ mem)) power

theorem isNumberChar_of_mem_chars {c : Char} {style : Style} {x : Decimal} (h : c ∈ x.chars style) :
    isNumberChar c = true := by
  have hdigits : ∀ d ∈ x.significantDigits, isNumberChar d = true :=
    fun d => isNumberChar_of_mem_significantDigits
  simp only [chars] at h
  split at h
  · exact isNumberChar_of_mem_positional hdigits h
  · exact isNumberChar_of_mem_scientific hdigits h

theorem chars_ne_nil (style : Style) (x : Decimal) : x.chars style ≠ [] := by
  simp only [chars]
  split
  · unfold positional
    split
    · exact List.cons_ne_nil _ _
    · simp only
      split <;> simp
  · match x.significantDigits with
    | [] => exact List.cons_ne_nil _ _
    | [d] => exact List.cons_ne_nil _ _
    | d :: e :: ds => exact List.cons_ne_nil _ _

end Decimal

namespace Number

theorem isNumberChar_of_mem_chars {c : Char} {n : Number} (h : c ∈ n.chars) :
    isNumberChar c = true := by
  cases n with
  | integer n =>
    simp only [chars] at h
    split at h
    · exact (List.mem_cons.mp h).elim (fun same => same ▸ rfl) isNumberChar_of_mem_toDigits
    · exact isNumberChar_of_mem_toDigits h
  | float x =>
    have magnitude : c ∈ (if x.isZero then ['0', '.', '0'] else x.shortest.chars style) →
        isNumberChar c = true := by
      intro mem
      split at mem
      · have zero : ['0', '.', '0'].all isNumberChar = true := rfl
        exact List.all_eq_true.mp zero c mem
      · exact Decimal.isNumberChar_of_mem_chars mem
    simp only [chars, Double.chars] at h
    split at h
    · exact (List.mem_cons.mp h).elim (fun same => same ▸ rfl) magnitude
    · exact magnitude h

theorem chars_ne_nil (n : Number) : n.chars ≠ [] := by
  cases n with
  | integer n =>
    simp only [chars]
    split
    · exact List.cons_ne_nil _ _
    · exact Nat.toDigits_ne_nil
  | float x =>
    simp only [chars, Double.chars]
    split
    · exact List.cons_ne_nil _ _
    · split
      · exact List.cons_ne_nil _ _
      · exact Decimal.chars_ne_nil _ _

end Number

/-- Two runs of characters of one class end where the class does. -/
theorem append_inj_of_run {p : Char → Bool} {xs ys r s : List Char} (hxs : ∀ c ∈ xs, p c = true)
    (hys : ∀ c ∈ ys, p c = true) (hr : ∀ c ∈ r.head?, p c = false)
    (hs : ∀ c ∈ s.head?, p c = false) (h : xs ++ r = ys ++ s) : xs = ys ∧ r = s := by
  have run : ∀ {zs t : List Char}, (∀ c ∈ zs, p c = true) → (∀ c ∈ t.head?, p c = false) →
      (zs ++ t).takeWhile p = zs := by
    intro zs t hzs ht
    rw [List.takeWhile_append_of_pos hzs]
    cases t with
    | nil => simp
    | cons c t => simp [ht c rfl]
  have same : xs = ys := by
    rw [← run hxs hr, h, run hys hs]
  subst same
  exact ⟨rfl, List.append_cancel_left h⟩

namespace Json

/-! ## Values -/

/-- What may follow a value in a text: nothing, or a character between or after parts. -/
def EndsValue (rest : List Char) : Prop := ∀ c ∈ rest.head?, c ∈ [',', ']', '}']

theorem endsValue_nil : EndsValue [] := by simp [EndsValue]

/-- The same value but for how its numbers came about. -/
inductive WrittenAlike : Json → Json → Prop
  | null : WrittenAlike .null .null
  | bool (b : Bool) : WrittenAlike (.bool b) (.bool b)
  | number {m n : Number} : m.chars = n.chars → WrittenAlike (.number m) (.number n)
  | string (text : String) : WrittenAlike (.string text) (.string text)
  | array {items others : List Json} : List.Forall₂ WrittenAlike items others →
      WrittenAlike (.array items) (.array others)
  | object {members others : Members} : others.names = members.names →
      List.Forall₂ WrittenAlike (members.map Prod.snd) (others.map Prod.snd) →
      WrittenAlike (.object members) (.object others)

section

variable {α : Type} {text : α → List Char} {R : α → α → Prop} {closing : Char}

theorem intercalate_cons (separator x : List Char) (xs : List (List Char)) :
    separator.intercalate (x :: xs) = x ++ xs.flatMap fun y => separator ++ y := by
  induction xs generalizing x with
  | nil => simp
  | cons y ys ih => rw [List.intercalate_cons_cons, ih]; simp

theorem endsValue_parts (xs : List α) (hclosing : closing = ']' ∨ closing = '}') (r : List Char) :
    EndsValue (xs.flatMap (fun x => ',' :: text x) ++ closing :: r) := by
  intro c hc
  cases xs with
  | nil =>
    obtain rfl : closing = c := by simpa using hc
    rcases hclosing with rfl | rfl <;> decide
  | cons x xs =>
    obtain rfl : ',' = c := by simpa using hc
    decide

/-- Parts with commas before them are read one by one up to the closing bracket. -/
theorem parts_append_inj (hclosing : closing = ']' ∨ closing = '}') {xs ys : List α}
    (each : ∀ x ∈ xs, ∀ y r s, EndsValue r → EndsValue s → text x ++ r = text y ++ s →
      R x y ∧ r = s) {r s : List Char}
    (h : xs.flatMap (fun x => ',' :: text x) ++ closing :: r =
      ys.flatMap (fun y => ',' :: text y) ++ closing :: s) : List.Forall₂ R xs ys ∧ r = s := by
  have noComma : ',' ≠ closing := by
    rcases hclosing with rfl | rfl <;> decide
  induction xs generalizing ys with
  | nil =>
    cases ys with
    | nil => exact ⟨.nil, (List.cons.inj h).2⟩
    | cons y ys => exact absurd (List.cons.inj h).1.symm noComma
  | cons x xs ih =>
    cases ys with
    | nil => exact absurd (List.cons.inj h).1 noComma
    | cons y ys =>
      obtain ⟨hx, hxs⟩ := List.forall_mem_cons.mp each
      simp only [List.flatMap_cons, List.cons_append, List.append_assoc, List.cons.injEq,
        true_and] at h
      obtain ⟨hxy, later⟩ := hx y _ _ (endsValue_parts xs hclosing r)
        (endsValue_parts ys hclosing s) h
      obtain ⟨hrest, same⟩ := ih hxs later
      exact ⟨.cons hxy hrest, same⟩

theorem bracketed_append_inj (hclosing : closing = ']' ∨ closing = '}') {xs ys : List α}
    (starts : ∀ x : α, ∀ r s, text x ++ r ≠ closing :: s)
    (each : ∀ x ∈ xs, ∀ y r s, EndsValue r → EndsValue s → text x ++ r = text y ++ s →
      R x y ∧ r = s) {r s : List Char}
    (h : [','].intercalate (xs.map text) ++ closing :: r =
      [','].intercalate (ys.map text) ++ closing :: s) : List.Forall₂ R xs ys ∧ r = s := by
  cases xs with
  | nil =>
    cases ys with
    | nil => exact ⟨.nil, (List.cons.inj h).2⟩
    | cons y ys =>
      rw [List.map_cons, intercalate_cons, List.append_assoc] at h
      exact absurd h.symm (starts y _ _)
  | cons x xs =>
    cases ys with
    | nil =>
      rw [List.map_cons, intercalate_cons, List.append_assoc] at h
      exact absurd h (starts x _ _)
    | cons y ys =>
      obtain ⟨hx, hxs⟩ := List.forall_mem_cons.mp each
      simp only [List.map_cons, intercalate_cons, List.append_assoc, List.flatMap_map,
        List.singleton_append] at h
      obtain ⟨hxy, later⟩ := hx y _ _ (endsValue_parts xs hclosing r)
        (endsValue_parts ys hclosing s) h
      obtain ⟨hrest, same⟩ := parts_append_inj hclosing hxs later
      exact ⟨.cons hxy hrest, same⟩

end

theorem isNumberChar_of_endsValue {rest : List Char} (h : EndsValue rest) :
    ∀ c ∈ rest.head?, isNumberChar c = false := by
  intro c hc
  have ends : [',', ']', '}'].all (fun d => !isNumberChar d) = true := rfl
  simpa using List.all_eq_true.mp ends c (h c hc)

/-- The type of a value whose text begins with a character, if there is one. -/
def typeOfFirst? (c : Char) : Option String :=
  if isNumberChar c then some "number"
  else if c = 'n' then some "null"
  else if c = 't' ∨ c = 'f' then some "boolean"
  else if c = '"' then some "string"
  else if c = '[' then some "array"
  else if c = '{' then some "object"
  else none

theorem exists_chars_eq_cons (value : Json) :
    ∃ c rest, value.chars = c :: rest ∧ typeOfFirst? c = some value.typeName := by
  cases value with
  | null => exact ⟨_, _, rfl, rfl⟩
  | bool b => cases b <;> exact ⟨_, _, rfl, rfl⟩
  | number n =>
    obtain ⟨c, rest, hchars⟩ := List.exists_cons_of_ne_nil n.chars_ne_nil
    have number : isNumberChar c = true := n.isNumberChar_of_mem_chars (hchars ▸ List.mem_cons_self)
    exact ⟨c, rest, hchars, if_pos number⟩
  | string text => exact ⟨_, _, rfl, rfl⟩
  | array items => exact ⟨_, _, rfl, rfl⟩
  | object members => exact ⟨_, _, rfl, rfl⟩

/-- No text of a value begins with a closing bracket. -/
theorem chars_append_ne (value : Json) {closing : Char} (hclosing : closing = ']' ∨ closing = '}')
    (r s : List Char) : value.chars ++ r ≠ closing :: s := by
  obtain ⟨c, rest, hchars, hfirst⟩ := value.exists_chars_eq_cons
  intro h
  rw [hchars] at h
  obtain rfl := (List.cons.inj h).1
  have none : typeOfFirst? c = none := by
    rcases hclosing with rfl | rfl <;> rfl
  rw [none] at hfirst
  cases hfirst

theorem typeName_eq_of_chars_append {value other : Json} {r s : List Char}
    (h : value.chars ++ r = other.chars ++ s) : value.typeName = other.typeName := by
  obtain ⟨c, rest, hchars, hfirst⟩ := value.exists_chars_eq_cons
  obtain ⟨d, rest', hchars', hfirst'⟩ := other.exists_chars_eq_cons
  rw [hchars, hchars'] at h
  have same : c = d := (List.cons.inj h).1
  exact Option.some.inj (hfirst.symm.trans (same ▸ hfirst'))

/-- The members of an object can be read if their values can. -/
theorem members_append_inj {members others : Members} {r s : List Char}
    (values : ∀ member ∈ members, ∀ (other : Json) (r s : List Char), EndsValue r → EndsValue s →
      member.2.chars ++ r = other.chars ++ s → member.2.WrittenAlike other ∧ r = s)
    (h : (object members).chars ++ r = (object others).chars ++ s) :
    (object members).WrittenAlike (object others) ∧ r = s := by
  simp only [chars, memberTexts_eq_map, List.cons_append, List.append_assoc, List.nil_append,
    List.cons.injEq, true_and] at h
  have each : ∀ member ∈ members, ∀ (other : String × Json) (r s : List Char),
      EndsValue r → EndsValue s →
      quoted member.1 ++ ':' :: member.2.chars ++ r =
        quoted other.1 ++ ':' :: other.2.chars ++ s →
      (other.1 = member.1 ∧ member.2.WrittenAlike other.2) ∧ r = s := by
    intro member mem other r s hr hs h
    rw [List.append_assoc, List.append_assoc] at h
    obtain ⟨name, h⟩ := quoted_append_inj h
    obtain ⟨alike, rest⟩ := values member mem other.2 r s hr hs (List.cons.inj h).2
    exact ⟨⟨name.symm, alike⟩, rest⟩
  obtain ⟨alike, rest⟩ := bracketed_append_inj (.inr rfl)
    (fun _ _ _ h => absurd (List.cons.inj h).1 (by decide)) each h
  refine ⟨.object (map_eq_of_forall₂ (fun _ _ h => h.1) alike) ?_, rest⟩
  rw [List.forall₂_map_left_iff, List.forall₂_map_right_iff]
  exact alike.imp fun _ _ h => h.2

/-- The items of an array can be read if each of them can. -/
theorem items_append_inj {items others : List Json} {r s : List Char}
    (each : ∀ item ∈ items, ∀ (other : Json) (r s : List Char), EndsValue r → EndsValue s →
      item.chars ++ r = other.chars ++ s → item.WrittenAlike other ∧ r = s)
    (h : (array items).chars ++ r = (array others).chars ++ s) :
    (array items).WrittenAlike (array others) ∧ r = s := by
  simp only [chars, itemTexts_eq_map, List.cons_append, List.append_assoc, List.nil_append,
    List.cons.injEq, true_and] at h
  obtain ⟨alike, rest⟩ :=
    bracketed_append_inj (.inl rfl) (fun x => x.chars_append_ne (.inl rfl)) each h
  exact ⟨.array alike, rest⟩

theorem writtenAlike_of_chars_append {value other : Json} {r s : List Char} (hr : EndsValue r)
    (hs : EndsValue s) (h : value.chars ++ r = other.chars ++ s) :
    value.WrittenAlike other ∧ r = s := by
  -- One text begins one type of value only, so the types agree before anything else is known.
  have type := typeName_eq_of_chars_append h
  induction value using induction_on_values generalizing other r s with
  | null =>
    cases other with
    | null => exact ⟨.null, List.append_cancel_left h⟩
    | _ => exact absurd type (by simp [typeName])
  | bool b =>
    cases other with
    | bool b' =>
      cases b <;> cases b' <;> simp [chars] at h
      · exact ⟨.bool false, h⟩
      · exact ⟨.bool true, h⟩
    | _ => exact absurd type (by simp [typeName])
  | number m =>
    cases other with
    | number n =>
      obtain ⟨same, rest⟩ := append_inj_of_run (fun _ => m.isNumberChar_of_mem_chars)
        (fun _ => n.isNumberChar_of_mem_chars) (isNumberChar_of_endsValue hr)
        (isNumberChar_of_endsValue hs) h
      exact ⟨.number same, rest⟩
    | _ => exact absurd type (by simp [typeName])
  | string text =>
    cases other with
    | string text' =>
      obtain ⟨rfl, rest⟩ := quoted_append_inj h
      exact ⟨.string text, rest⟩
    | _ => exact absurd type (by simp [typeName])
  | array items ih =>
    cases other with
    | array others =>
      refine items_append_inj (fun item mem other r s hr hs h => ?_) h
      exact ih item mem hr hs h (typeName_eq_of_chars_append h)
    | _ => exact absurd type (by simp [typeName])
  | object members ih =>
    cases other with
    | object others =>
      refine members_append_inj (fun member mem other r s hr hs h => ?_) h
      exact ih member mem hr hs h (typeName_eq_of_chars_append h)
    | _ => exact absurd type (by simp [typeName])

theorem writtenAlike_of_compact_eq {value other : Json} (h : value.compact = other.compact) :
    value.WrittenAlike other := by
  have chars : value.chars ++ [] = other.chars ++ [] := by
    rw [List.append_nil, List.append_nil]
    exact String.ofList_injective h
  exact (writtenAlike_of_chars_append endsValue_nil endsValue_nil chars).1

/-! ## Keys -/

end Json

theorem Members.ordered_map (f : Json → Json) (members : Members) :
    ordered (members.map fun member => (member.1, f member.2)) =
      (ordered members).map fun member => (member.1, f member.2) := by
  have insert : ∀ (member : String × Json) (members : Members),
      insertOrdered (member.1, f member.2) (members.map fun member => (member.1, f member.2)) =
        (insertOrdered member members).map fun member => (member.1, f member.2) := by
    intro member members
    induction members with
    | nil => rfl
    | cons other rest ih =>
      simp only [List.map_cons, insertOrdered]
      split
      · rfl
      · rw [ih, List.map_cons]
  induction members with
  | nil => rfl
  | cons member rest ih =>
    change insertOrdered _ (ordered _) = _
    rw [ih, insert]
    rfl

namespace Json

theorem WrittenAlike.typeName_eq {value other : Json} (h : value.WrittenAlike other) :
    value.typeName = other.typeName := by
  cases h <;> rfl

theorem typeName_canonical (value : Json) : value.canonical.typeName = value.typeName := by
  cases value <;> simp only [canonical, typeName]

theorem typeName_eq_of_canonical {value other : Json}
    (h : value.canonical.WrittenAlike other.canonical) : value.typeName = other.typeName := by
  rw [← typeName_canonical value, ← typeName_canonical other, h.typeName_eq]

/-- Members that agree once they are ordered can be arranged to agree. -/
theorem alike_object_of_canonical {members others : Members}
    (values : ∀ member ∈ members, ∀ other : Json,
      member.2.canonical.WrittenAlike other.canonical → member.2.Alike other)
    (h : (object members).canonical.WrittenAlike (object others).canonical) :
    (object members).Alike (object others) := by
  simp only [canonical, canonicalMembers_eq_map, Members.ordered_map] at h
  cases h with
  | object names texts =>
    have ordered := forall₂_of_named names texts
    rw [List.forall₂_map_left_iff, List.forall₂_map_right_iff] at ordered
    obtain ⟨arranged, alike, perm⟩ :=
      List.perm_comp_forall₂ (Members.perm_ordered members).symm ordered
    refine .object (map_eq_of_forall₂ (fun _ _ h => h.1) alike) ?_
      (perm.trans (Members.perm_ordered others))
    rw [List.forall₂_map_left_iff, List.forall₂_map_right_iff]
    exact (forall₂_mem alike).imp fun member other h => values member h.1 other.2 h.2.2

/-- Values with one canonical form are alike. -/
theorem alike_of_canonical {value other : Json}
    (h : value.canonical.WrittenAlike other.canonical) : value.Alike other := by
  have type := typeName_eq_of_canonical h
  induction value using induction_on_values generalizing other with
  | null =>
    cases other with
    | null => exact .null
    | _ => exact absurd type (by simp [typeName])
  | bool b =>
    cases other with
    | bool b' =>
      cases h
      exact .bool b
    | _ => exact absurd type (by simp [typeName])
  | number n =>
    cases other with
    | number n' =>
      cases h with
      | number same => exact .number same
    | _ => exact absurd type (by simp [typeName])
  | string text =>
    cases other with
    | string text' =>
      cases h
      exact .string text
    | _ => exact absurd type (by simp [typeName])
  | array items ih =>
    cases other with
    | array others =>
      simp only [canonical, canonicalItems_eq_map] at h
      cases h with
      | array hitems =>
        rw [List.forall₂_map_left_iff, List.forall₂_map_right_iff] at hitems
        exact .array ((forall₂_mem hitems).imp fun item _ h =>
          ih item h.1 h.2 (typeName_eq_of_canonical h.2))
    | _ => exact absurd type (by simp [typeName])
  | object members ih =>
    cases other with
    | object others =>
      exact alike_object_of_canonical
        (fun member mem _ h => ih member mem h (typeName_eq_of_canonical h)) h
    | _ => exact absurd type (by simp [typeName])

theorem alike_of_key_eq {value other : Json} (h : value.key = other.key) : value.Alike other :=
  alike_of_canonical (writtenAlike_of_compact_eq h)

end Json

end SchemaDoc
