import SchemaDoc.Proofs.InStep
import SchemaDoc.Proofs.Text.Characters

/-!
# The forms of generated annotations

The test for generated text scans a text greedily, once from the left for each form. Each form is
also a set of texts, stated by the ways to cut a text into parts. The test accepts exactly the texts
of these sets: no part that is taken greedily can be cut in another way, since what follows it never
begins with a character of it.
-/
namespace SchemaDoc.Generated

open Text

/-- Nothing but white space. -/
def Blank (text : List Char) : Prop := ∀ c ∈ text, isBlank c = true

/-- Simple case folding takes the first character to the second, which is one of ASCII. -/
inductive FoldsTo : Char → Char → Prop
  | same {c : Char} : c.toNat < 128 → c.isUpper = false → FoldsTo c c
  | capital {c small : Char} : c.isUpper = true → small.toNat = c.toNat + 32 → FoldsTo c small
  | longS : FoldsTo '\u017f' 's'
  | kelvin : FoldsTo '\u212a' 'k'

/-- The text is the given word under simple case folding. -/
def Spells (text : List Char) (word : String) : Prop := List.Forall₂ FoldsTo text word.toList

/-- Exactly one of the characters next to the cut is a word character. -/
def WordBoundary (before after : List Char) : Prop :=
  Xor (∃ c ∈ before.getLast?, isWordChar c = true) (∃ c ∈ after.head?, isWordChar c = true)

/-- The name of a type between blanks. -/
def IsBareName (text : List Char) : Prop :=
  ∃ before word after, text = before ++ word ++ after ∧ Blank before ∧ Blank after ∧
    ∃ name ∈ ["string", "number", "boolean", "bigint", "symbol", "object", "array", "void",
      "undefined", "unknown", "any", "never", "null", "integer", "int", "literal", "struct",
      "union", "tuple", "record"], Spells word name

/-- Between blanks, a letter and then letters and digits, with arguments in parentheses on one
line. -/
def IsCall (text : List Char) : Prop :=
  ∃ before letter name arguments after,
    text = before ++ letter :: name ++ '(' :: arguments ++ ')' :: after ∧
      Blank before ∧ letter.isAlpha = true ∧ (∀ c ∈ name, c.isAlphanum = true) ∧
      '\n' ∉ arguments ∧ Blank after

/-- Some part of the text is a phrase that describes a constraint. -/
def HasPhrase (text : List Char) : Prop :=
  ∃ before part after, text = before ++ part ++ after ∧
    (Spells part "greater than" ∨ Spells part "less than" ∨ Spells part "character(s)" ∨
      Spells part "item(s)" ∨ Spells part "matching the pattern")

/-- The name of a type that ends at a word boundary, or a word that is called non-empty. -/
def BeginsWithType (text : List Char) : Prop :=
  (∃ word after, text = word ++ after ∧
    (∃ name ∈ ["string", "number", "integer", "boolean", "bigint", "array", "object",
      "finite number"], Spells word name) ∧
    WordBoundary word after) ∨
  ∃ word gap c after, text = word ++ gap ++ c :: after ∧ Spells word "non-empty" ∧
    gap ≠ [] ∧ Blank gap ∧ isWordChar c = true

/-- Blanks, an article, at least one blank and a type. -/
def BeginsWithArticle (text : List Char) : Prop :=
  ∃ before article gap rest, text = before ++ article ++ gap ++ rest ∧ Blank before ∧
    (Spells article "a" ∨ Spells article "an") ∧ gap ≠ [] ∧ Blank gap ∧ BeginsWithType rest

/-! ## Comparison up to case -/

def Ascii (word : List Char) : Prop := ∀ c ∈ word, c.toNat < 128

-- Without this, membership in the word would be tested for every character there is.
instance (word : List Char) : Decidable (Ascii word) :=
  List.decidableBAll (fun c : Char => c.toNat < 128) word

theorem isUpper_eq_true_iff (c : Char) : c.isUpper = true ↔ 65 ≤ c.toNat ∧ c.toNat ≤ 90 := by
  simp [Char.isUpper, UInt32.le_iff_toNat_le, ← Char.toNat_val]

theorem toNat_toLower {c : Char} (h : c.isUpper = true) : c.toLower.toNat = c.toNat + 32 := by
  have bounds := (isUpper_eq_true_iff c).mp h
  have capital : c.val ≥ 'A'.val ∧ c.val ≤ 'Z'.val := by simpa [Char.isUpper] using h
  simp only [Char.toLower, capital, and_self, dif_pos, ← Char.toNat_val, UInt32.toNat_add]
    at bounds ⊢
  have : ('a'.val - 'A'.val).toNat = 32 := rfl
  omega

theorem toLower_eq_self {c : Char} (h : c.isUpper = false) : c.toLower = c := by
  have small : ¬ (c.val ≥ 'A'.val ∧ c.val ≤ 'Z'.val) := by simpa [Char.isUpper] using h
  simp only [Char.toLower, small, dif_neg, not_false_eq_true]

/-- Among characters of ASCII, folding leads where simple case folding does. -/
theorem foldChar_eq_iff {c letter : Char} (ascii : letter.toNat < 128) :
    foldChar c = letter ↔ FoldsTo c letter := by
  constructor
  · rintro rfl
    unfold foldChar at ascii ⊢
    split_ifs with hlong hkelvin
    · exact hlong ▸ .longS
    · exact hkelvin ▸ .kelvin
    · simp only [hlong, hkelvin, if_false] at ascii
      cases hupper : c.isUpper with
      | true => exact .capital hupper (toNat_toLower hupper)
      | false =>
        rw [toLower_eq_self hupper] at ascii ⊢
        exact .same ascii hupper
  · rintro (⟨-, hupper⟩ | ⟨hupper, hsmall⟩ | _ | _)
    · have hlong : c ≠ '\u017f' := by rintro rfl; exact absurd ascii (by decide)
      have hkelvin : c ≠ '\u212a' := by rintro rfl; exact absurd ascii (by decide)
      rw [foldChar, if_neg hlong, if_neg hkelvin, toLower_eq_self hupper]
    · have hlong : c ≠ '\u017f' := by rintro rfl; exact absurd hupper (by decide)
      have hkelvin : c ≠ '\u212a' := by rintro rfl; exact absurd hupper (by decide)
      rw [foldChar, if_neg hlong, if_neg hkelvin]
      exact Char.toNat_inj.mp ((toNat_toLower hupper).trans hsmall.symm)
    · rfl
    · rfl

theorem fold_eq_iff {text word : List Char} (ascii : Ascii word) :
    fold text = word ↔ List.Forall₂ FoldsTo text word := by
  unfold fold
  induction text generalizing word with
  | nil => simp [eq_comm]
  | cons c rest ih =>
    cases word with
    | nil => simp
    | cons letter letters =>
      obtain ⟨hletter, hletters⟩ := List.forall_mem_cons.mp ascii
      rw [List.map_cons, List.cons.injEq, foldChar_eq_iff hletter, ih hletters,
        List.forall₂_cons]

/-- What follows a word up to case. -/
theorem afterFolded?_eq_some_iff {word text rest : List Char} (ascii : Ascii word) :
    afterFolded? word text = some rest ↔
      ∃ part, text = part ++ rest ∧ List.Forall₂ FoldsTo part word := by
  induction word generalizing text with
  | nil => simp [afterFolded?]
  | cons letter letters ih =>
    obtain ⟨hletter, hletters⟩ := List.forall_mem_cons.mp ascii
    cases text with
    | nil => simp [afterFolded?]
    | cons c tail =>
      rw [afterFolded?, Option.ite_none_right_eq_some, foldChar_eq_iff hletter, ih hletters]
      constructor
      · rintro ⟨hfirst, part, rfl, hpart⟩
        exact ⟨c :: part, rfl, .cons hfirst hpart⟩
      · rintro ⟨_, htext, hfirst | ⟨hfirst, hpart⟩⟩
        obtain ⟨rfl, htail⟩ := List.cons.inj htext
        exact ⟨hfirst, _, htail, hpart⟩

/-! ## Blanks -/

variable {text before after word : List Char}

theorem trimStart_append (blank : Blank before) (rest : List Char) :
    trimStart (before ++ rest) = trimStart rest :=
  List.dropWhile_append_of_pos blank

theorem trimStart_cons {c : Char} (h : isBlank c = false) (rest : List Char) :
    trimStart (c :: rest) = c :: rest :=
  List.dropWhile_cons_of_neg (by simp [h])

theorem trimEnd_append (blank : Blank after) (text : List Char) :
    trimEnd (text ++ after) = trimEnd text := by
  unfold trimEnd
  rw [List.reverse_append, List.dropWhile_append_of_pos]
  exact fun c mem => blank c (List.mem_reverse.mp mem)

theorem trimEnd_concat {c : Char} (h : isBlank c = false) (text : List Char) :
    trimEnd (text ++ [c]) = text ++ [c] := by
  simp [trimEnd, h]

theorem exists_trimStart (text : List Char) : ∃ before, text = before ++ trimStart text ∧
    Blank before :=
  ⟨text.takeWhile isBlank, List.takeWhile_append_dropWhile.symm,
    List.all_eq_true.mp List.all_takeWhile⟩

theorem exists_trimEnd (text : List Char) : ∃ after, text = trimEnd text ++ after ∧
    Blank after := by
  obtain ⟨blanks, htext, hblanks⟩ := exists_trimStart text.reverse
  refine ⟨blanks.reverse, ?_, fun c mem => hblanks c (List.mem_reverse.mp mem)⟩
  rw [trimEnd, ← List.reverse_append, ← trimStart, ← htext, List.reverse_reverse]

theorem exists_trim (text : List Char) : ∃ before after, text = before ++ trim text ++ after ∧
    Blank before ∧ Blank after := by
  obtain ⟨before, htext, hbefore⟩ := exists_trimStart text
  obtain ⟨after, hstart, hafter⟩ := exists_trimEnd (trimStart text)
  refine ⟨before, after, ?_, hbefore, hafter⟩
  rw [List.append_assoc, trim, ← hstart, ← htext]

/-- A part whose ends are not blank is what stands between blanks. -/
theorem trim_append (hbefore : Blank before) (hafter : Blank after)
    (first : ∀ c ∈ word.head?, isBlank c = false) (last : ∀ c ∈ word.getLast?, isBlank c = false) :
    trim (before ++ word ++ after) = word := by
  rw [trim, List.append_assoc, trimStart_append hbefore]
  rcases List.eq_nil_or_concat' word with rfl | ⟨front, c, rfl⟩
  · rw [List.nil_append, trimStart, List.dropWhile_eq_nil_iff.mpr hafter]
    rfl
  · have start : trimStart (front ++ [c] ++ after) = front ++ [c] ++ after := by
      cases front with
      | nil => exact trimStart_cons (first c (by simp)) after
      | cons d front => exact trimStart_cons (first d (by simp)) _
    rw [start, trimEnd_append hafter, trimEnd_concat (last c (by simp))]

/-- A gap of blanks, at least one, ends where no blank follows. -/
theorem afterBlanks?_append {gap rest : List Char} (some_blank : gap ≠ []) (blank : Blank gap) :
    afterBlanks? (gap ++ rest) = some (trimStart rest) := by
  obtain ⟨c, gap, rfl⟩ := List.exists_cons_of_ne_nil some_blank
  obtain ⟨hfirst, hgap⟩ := List.forall_mem_cons.mp blank
  rw [List.cons_append, afterBlanks?, if_pos hfirst, trimStart_append hgap]

theorem exists_of_afterBlanks? {rest : List Char} (h : afterBlanks? text = some rest) :
    ∃ gap, text = gap ++ rest ∧ gap ≠ [] ∧ Blank gap := by
  cases text with
  | nil => cases h
  | cons c tail =>
    rw [afterBlanks?, Option.ite_none_right_eq_some] at h
    obtain ⟨hfirst, hrest⟩ := h
    obtain ⟨gap, htail, hgap⟩ := exists_trimStart tail
    rw [Option.some.inj hrest] at htail
    exact ⟨c :: gap, by rw [htail, List.cons_append], List.cons_ne_nil _ _,
      List.forall_mem_cons.mpr ⟨hfirst, hgap⟩⟩

theorem isBlank_of_foldsTo {c letter : Char} (h : FoldsTo c letter) : isBlank c = isBlank letter := by
  rcases h with ⟨-, -⟩ | ⟨hupper, hsmall⟩ | _ | _
  · rfl
  · have bounds := (isUpper_eq_true_iff c).mp hupper
    rw [Bool.eq_iff_iff, isBlank_eq_true_iff, isBlank_eq_true_iff, hsmall]
    simp only [blankCodes, List.mem_cons, List.not_mem_nil, or_false]
    omega
  · rfl
  · rfl

/-! ## The four forms -/

theorem isBareName_eq_true_iff (text : List Char) : isBareName text = true ↔ IsBareName text := by
  have ascii : ∀ name ∈ bareNames, Ascii name.toList := by decide +kernel
  have solid : ∀ name ∈ bareNames, name.toList.any isBlank = false := by decide +kernel
  simp only [isBareName, List.any_eq_true, beq_iff_eq]
  constructor
  · rintro ⟨name, mem, h⟩
    obtain ⟨before, after, htext, hbefore, hafter⟩ := exists_trim text
    exact ⟨before, trim text, after, htext, hbefore, hafter, name, mem,
      (fold_eq_iff (ascii name mem)).mp h⟩
  · rintro ⟨before, word, after, rfl, hbefore, hafter, name, mem, h⟩
    have hsolid : ∀ c ∈ word, isBlank c = false := by
      intro c hc
      obtain ⟨letter, hletter, hfolds⟩ := exists_of_mem_right h.flip hc
      rw [isBlank_of_foldsTo hfolds]
      exact Bool.eq_false_iff.mpr (List.any_eq_false.mp (solid name mem) letter hletter)
    refine ⟨name, mem, ?_⟩
    rw [trim_append hbefore hafter (fun c hc => hsolid c (List.mem_of_head? hc))
      (fun c hc => hsolid c (List.mem_of_getLast? hc))]
    exact (fold_eq_iff (ascii name mem)).mpr h

theorem isLetter_eq (c : Char) : isLetter c = c.isAlpha := by
  rw [isLetter, Char.isAlpha, Bool.or_comm]
  simp [Char.isUpper, Char.isLower, Char.le_def]

theorem isLetterOrDigit_eq (c : Char) : isLetterOrDigit c = c.isAlphanum := by
  rw [isLetterOrDigit, isLetter_eq]
  simp [Char.isAlphanum, Char.isDigit, Char.le_def]

theorem isBlank_of_isAlpha {c : Char} (h : c.isAlpha = true) : isBlank c = false := by
  have letter : (65 ≤ c.toNat ∧ c.toNat ≤ 90) ∨ (97 ≤ c.toNat ∧ c.toNat ≤ 122) := by
    simpa [Char.isAlpha, Char.isUpper, Char.isLower, UInt32.le_iff_toNat_le, ← Char.toNat_val]
      using h
  rw [Bool.eq_false_iff, Ne, isBlank_eq_true_iff]
  simp only [blankCodes, List.mem_cons, List.not_mem_nil, or_false]
  omega

/-- The arguments begin at the first parenthesis and end at the last one. -/
theorem isCall_eq_true_iff (text : List Char) : isCall text = true ↔ IsCall text := by
  constructor
  · intro h
    obtain ⟨before, after, htext, hbefore, hafter⟩ := exists_trim text
    unfold isCall at h
    split at h
    · cases h
    · next letter rest htrim =>
      rw [Bool.and_eq_true, isLetter_eq] at h
      obtain ⟨hletter, h⟩ := h
      split at h
      · next inside hrest =>
        split at h
        · next arguments hinside =>
          have hclosed : inside = arguments.reverse ++ [')'] := by
            rw [← List.reverse_reverse inside, hinside, List.reverse_cons]
          have hname : ∀ c ∈ rest.takeWhile isLetterOrDigit, c.isAlphanum = true := by
            intro c mem
            rw [← isLetterOrDigit_eq]
            exact List.all_eq_true.mp List.all_takeWhile c mem
          have hcut := List.takeWhile_append_dropWhile (p := isLetterOrDigit) (l := rest)
          generalize rest.takeWhile isLetterOrDigit = name at hname hcut
          refine ⟨before, letter, name, arguments.reverse, after, ?_, hbefore, hletter, hname,
            by simpa using h, hafter⟩
          rw [htext, htrim, ← hcut, hrest, hclosed]
          simp
        · cases h
      · cases h
  · rintro ⟨before, letter, name, arguments, after, rfl, hbefore, hletter, hname, hline, hafter⟩
    have htrim : trim (before ++ letter :: name ++ '(' :: arguments ++ ')' :: after) =
        letter :: (name ++ '(' :: (arguments ++ [')'])) := by
      have parts : before ++ letter :: name ++ '(' :: arguments ++ ')' :: after =
          before ++ (letter :: (name ++ '(' :: (arguments ++ [')']))) ++ after := by simp
      rw [parts]
      refine trim_append hbefore hafter (fun c mem => ?_) fun c mem => ?_
      · rw [List.head?_cons, Option.mem_some_iff] at mem
        exact mem ▸ isBlank_of_isAlpha hletter
      · have hlast : (letter :: (name ++ '(' :: (arguments ++ [')']))).getLast? = some ')' := by
          simp [List.getLast?_cons, List.getLast?_append]
        rw [hlast, Option.mem_some_iff] at mem
        exact mem ▸ rfl
    have hdrop : (name ++ '(' :: (arguments ++ [')'])).dropWhile isLetterOrDigit =
        '(' :: (arguments ++ [')']) := by
      rw [List.dropWhile_append_of_pos fun c mem => (isLetterOrDigit_eq c).trans (hname c mem)]
      exact List.dropWhile_cons_of_neg (by decide)
    simp only [isCall, htrim, hdrop, isLetter_eq, hletter, List.reverse_append,
      List.reverse_singleton, List.singleton_append, Bool.true_and]
    simpa using hline

/-- A tail is sought wherever it may start. -/
theorem anyTail_eq_true_iff (p : List Char → Bool) (text : List Char) :
    anyTail p text = true ↔ ∃ before tail, text = before ++ tail ∧ p tail = true := by
  induction text with
  | nil => simp [anyTail]
  | cons c rest ih =>
    rw [anyTail, Bool.or_eq_true, ih]
    constructor
    · rintro (h | ⟨before, tail, rfl, h⟩)
      · exact ⟨[], c :: rest, rfl, h⟩
      · exact ⟨c :: before, tail, rfl, h⟩
    · rintro ⟨before, tail, htext, h⟩
      cases before with
      | nil => exact .inl (htext ▸ h)
      | cons d before => exact .inr ⟨before, tail, (List.cons.inj htext).2, h⟩

theorem hasPhrase_eq_true_iff (text : List Char) : hasPhrase text = true ↔ HasPhrase text := by
  have ascii : ∀ phrase ∈ phrases, Ascii phrase.toList := by decide +kernel
  simp only [hasPhrase, List.any_eq_true, anyTail_eq_true_iff]
  constructor
  · rintro ⟨phrase, mem, before, tail, rfl, h⟩
    obtain ⟨after, hafter⟩ := Option.isSome_iff_exists.mp h
    obtain ⟨part, rfl, hpart⟩ := (afterFolded?_eq_some_iff (ascii phrase mem)).mp hafter
    have hnamed : ∃ phrase ∈ phrases, Spells part phrase := ⟨phrase, mem, hpart⟩
    exact ⟨before, part, after, (List.append_assoc ..).symm, by simpa [phrases] using hnamed⟩
  · rintro ⟨before, part, after, rfl, h⟩
    obtain ⟨phrase, mem, hpart⟩ : ∃ phrase ∈ phrases, Spells part phrase := by
      simpa [phrases] using h
    refine ⟨phrase, mem, before, part ++ after, List.append_assoc .., ?_⟩
    rw [(afterFolded?_eq_some_iff (ascii phrase mem)).mpr ⟨part, rfl, hpart⟩]
    rfl

theorem isWordChar_of_foldsTo {c letter : Char} (h : FoldsTo c letter)
    (small : letter.isLower = true) : isWordChar c = true := by
  rw [isWordChar_eq_true_iff]
  rcases h with ⟨-, -⟩ | ⟨hupper, -⟩ | _ | _
  · refine ⟨(0x61, 0x7a), by decide +kernel, ?_⟩
    simpa [Char.isLower, UInt32.le_iff_toNat_le, ← Char.toNat_val] using small
  · exact ⟨(0x41, 0x5a), by decide +kernel, (isUpper_eq_true_iff c).mp hupper⟩
  · exact ⟨(0xf8, 0x2c1), by decide +kernel, by decide⟩
  · exact ⟨(0x212a, 0x212d), by decide +kernel, by decide⟩

/-- After a word character there is a boundary unless another one follows. -/
theorem wordBoundary_iff {c : Char} (last : c ∈ before.getLast?) (h : isWordChar c = true)
    (after : List Char) : WordBoundary before after ↔ endsWord after = true := by
  have ends : ∃ c ∈ before.getLast?, isWordChar c = true := ⟨c, last, h⟩
  rw [WordBoundary, eq_true ends, xor_true]
  cases after with
  | nil => simp [endsWord]
  | cons d rest => simp [endsWord]

theorem exists_last_of_spells {word : List Char} {name : String} {letter : Char}
    (h : Spells word name) (hlast : letter ∈ name.toList.getLast?) :
    ∃ c ∈ word.getLast?, FoldsTo c letter := by
  obtain ⟨front, hname⟩ := List.getLast?_eq_some_iff.mp hlast
  unfold Spells at h
  rw [hname] at h
  have hend := List.forall₂_drop_append _ _ _ h
  cases hdrop : word.drop front.length with
  | nil => rw [hdrop] at hend; cases hend
  | cons c rest =>
    rw [hdrop] at hend
    obtain ⟨hfolds, hrest⟩ := List.forall₂_cons.mp hend
    rw [List.forall₂_nil_right_iff.mp hrest] at hdrop
    refine ⟨c, ?_, hfolds⟩
    rw [← List.take_append_drop front.length word, hdrop]
    simp

/-- A word that does not begin with a blank stays when blanks are skipped. -/
theorem trimStart_of_spells {word : List Char} {name : String} (h : Spells word name)
    (solid : name.toList.head?.any (!isBlank ·) = true) (rest : List Char) :
    trimStart (word ++ rest) = word ++ rest := by
  obtain ⟨letter, hletter, hblank⟩ := (Option.any_eq_true ..).mp solid
  obtain ⟨letters, hname⟩ := List.head?_eq_some_iff.mp hletter
  unfold Spells at h
  rw [hname] at h
  obtain ⟨c, tail, hfolds, -, rfl⟩ := List.forall₂_cons_right_iff.mp h
  exact trimStart_cons ((isBlank_of_foldsTo hfolds).trans ((Bool.not_eq_true' _).mp hblank)) _

theorem beginsWithType_eq_true_iff (text : List Char) :
    beginsWithType text = true ↔ BeginsWithType text := by
  have ascii : ∀ name ∈ articleTypes, Ascii name.toList := by decide +kernel
  have lower : ∀ name ∈ articleTypes, name.toList.getLast?.any Char.isLower = true := by
    decide +kernel
  have ascii' : Ascii "non-empty".toList := by decide +kernel
  have boundary : ∀ name ∈ articleTypes, ∀ word after, Spells word name →
      (WordBoundary word after ↔ endsWord after = true) := by
    intro name mem word after h
    obtain ⟨letter, hletter, hlower⟩ := (Option.any_eq_true ..).mp (lower name mem)
    obtain ⟨c, hlast, hfolds⟩ := exists_last_of_spells h hletter
    exact wordBoundary_iff hlast (isWordChar_of_foldsTo hfolds hlower) after
  unfold beginsWithType BeginsWithType
  rw [Bool.or_eq_true, List.any_eq_true]
  refine or_congr ⟨?_, ?_⟩ ⟨?_, ?_⟩
  · rintro ⟨name, mem, h⟩
    split at h
    · next rest hrest =>
      obtain ⟨word, rfl, hword⟩ := (afterFolded?_eq_some_iff (ascii name mem)).mp hrest
      exact ⟨word, rest, rfl, ⟨name, mem, hword⟩, (boundary name mem word rest hword).mpr h⟩
    · cases h
  · rintro ⟨word, after, rfl, ⟨name, mem, hword⟩, hends⟩
    refine ⟨name, mem, ?_⟩
    rw [(afterFolded?_eq_some_iff (ascii name mem)).mpr ⟨word, rfl, hword⟩]
    exact (boundary name mem word after hword).mp hends
  · intro h
    split at h
    · next c rest hbind =>
      obtain ⟨tail, htail, hgap⟩ := Option.bind_eq_some_iff.mp hbind
      obtain ⟨word, rfl, hword⟩ := (afterFolded?_eq_some_iff ascii').mp htail
      obtain ⟨gap, rfl, some_blank, blank⟩ := exists_of_afterBlanks? hgap
      exact ⟨word, gap, c, rest, (List.append_assoc ..).symm, hword, some_blank, blank, h⟩
    · cases h
  · rintro ⟨word, gap, c, after, rfl, hword, some_blank, blank, hc⟩
    have hsolid : isBlank c = false := by
      by_contra hblank
      rw [isWordChar_of_isBlank (Bool.not_eq_false _ ▸ hblank)] at hc
      cases hc
    rw [List.append_assoc, (afterFolded?_eq_some_iff ascii').mpr ⟨word, rfl, hword⟩,
      Option.bind_some, afterBlanks?_append some_blank blank, trimStart_cons hsolid]
    exact hc

theorem BeginsWithType.trimStart_eq {text : List Char} (h : BeginsWithType text) :
    trimStart text = text := by
  have solid : ∀ name ∈ articleTypes, name.toList.head?.any (!isBlank ·) = true := by
    decide +kernel
  rcases h with ⟨word, after, rfl, ⟨name, mem, hword⟩, -⟩ | ⟨word, gap, c, after, rfl, hword, -⟩
  · exact trimStart_of_spells hword (solid name mem) after
  · rw [List.append_assoc]
    exact trimStart_of_spells hword (by decide +kernel) _

theorem beginsWithArticle_eq_true_iff (text : List Char) :
    beginsWithArticle text = true ↔ BeginsWithArticle text := by
  have ascii : ∀ article ∈ ["a", "an"], Ascii article.toList := by decide +kernel
  have solid : ∀ article ∈ ["a", "an"], article.toList.head?.any (!isBlank ·) = true := by
    decide +kernel
  unfold beginsWithArticle BeginsWithArticle
  rw [List.any_eq_true]
  constructor
  · rintro ⟨name, mem, h⟩
    split at h
    · next rest hbind =>
      obtain ⟨tail, htail, hgap⟩ := Option.bind_eq_some_iff.mp hbind
      obtain ⟨before, htext, hbefore⟩ := exists_trimStart text
      obtain ⟨article, hstart, harticle⟩ := (afterFolded?_eq_some_iff (ascii name mem)).mp htail
      obtain ⟨gap, rfl, some_blank, blank⟩ := exists_of_afterBlanks? hgap
      have hnamed : ∃ name ∈ ["a", "an"], Spells article name := ⟨name, mem, harticle⟩
      refine ⟨before, article, gap, rest, ?_, hbefore, by simpa using hnamed, some_blank, blank,
        (beginsWithType_eq_true_iff rest).mp h⟩
      rw [List.append_assoc, List.append_assoc, ← hstart, ← htext]
    · cases h
  · rintro ⟨before, article, gap, rest, rfl, hbefore, harticle, some_blank, blank, htype⟩
    obtain ⟨name, mem, hname⟩ : ∃ name ∈ ["a", "an"], Spells article name := by
      simpa using harticle
    refine ⟨name, mem, ?_⟩
    rw [List.append_assoc, List.append_assoc, trimStart_append hbefore,
      trimStart_of_spells hname (solid name mem),
      (afterFolded?_eq_some_iff (ascii name mem)).mpr ⟨article, rfl, hname⟩,
      Option.bind_some, afterBlanks?_append some_blank blank, htype.trimStart_eq]
    exact (beginsWithType_eq_true_iff rest).mpr htype

/-- A text counts as generated exactly if it has one of the four forms. -/
theorem isGenerated_eq_true_iff (text : String) :
    isGenerated text = true ↔
      IsBareName text.toList ∨ IsCall text.toList ∨ HasPhrase text.toList ∨
        BeginsWithArticle text.toList := by
  simp only [isGenerated, Bool.or_eq_true, isBareName_eq_true_iff, isCall_eq_true_iff,
    hasPhrase_eq_true_iff, beginsWithArticle_eq_true_iff, or_assoc]

end SchemaDoc.Generated
