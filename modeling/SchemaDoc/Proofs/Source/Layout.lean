import Mathlib.Data.List.Basic
import SchemaDoc.Source.OfText

/-!
# How text without blanks is laid out

`Source.Lays` says of some characters that, wherever they stand in a text, a value is laid out
from them. Strings of plain characters and objects are put together from such parts.
-/
namespace SchemaDoc

/-- From the characters, a good value is laid out whatever follows them, if the fuel is enough. -/
def Source.Lays (chars : List Char) (good : Source → Prop) : Prop :=
  ∀ rest offset fuel, chars.length ≤ fuel → ∃ source after,
    valueAt fuel (chars ++ rest) offset = (source, some ⟨rest, after⟩) ∧ good source

/-- From the characters, good entries are laid out up to the end of the object. -/
def Entries.Lays (first : Bool) (chars : List Char) (good : Entries → Prop) : Prop :=
  ∀ rest offset fuel, chars.length ≤ fuel → ∃ entries after,
    Source.entriesAt fuel first (chars ++ rest) offset = (entries, some ⟨rest, after⟩) ∧
      good entries

theorem Source.Lays.imp {chars : List Char} {good better : Source → Prop}
    (h : Source.Lays chars good) (imp : ∀ source, good source → better source) :
    Source.Lays chars better := by
  intro rest offset fuel hfuel
  obtain ⟨source, after, hsource, hgood⟩ := h rest offset fuel hfuel
  exact ⟨source, after, hsource, imp source hgood⟩

theorem Entries.Lays.imp {first : Bool} {chars : List Char} {good better : Entries → Prop}
    (h : Entries.Lays first chars good) (imp : ∀ entries, good entries → better entries) :
    Entries.Lays first chars better := by
  intro rest offset fuel hfuel
  obtain ⟨entries, after, hentries, hgood⟩ := h rest offset fuel hfuel
  exact ⟨entries, after, hentries, imp entries hgood⟩

namespace Lexeme

/-- A character that stands for itself in a string. -/
def isPlain (c : Char) : Bool := c != '"' && c != '\\' && 0x20 ≤ c.toNat

theorem skipSpace_of_not_space {c : Char} (h : isSpace c = false) (rest : List Char)
    (offset : Nat) : skipSpace (c :: rest) offset = ⟨c :: rest, offset⟩ := by
  rw [skipSpace, h]
  rfl

theorem scanString_plain {chars : List Char} (plain : chars.all isPlain = true)
    (read rest : List Char) (offset : Nat) :
    ∃ after, scanString (.ok (read, none)) (chars ++ '"' :: rest) offset =
      ⟨.ok (String.ofList (read.reverse ++ chars)), .ok ⟨rest, after⟩⟩ := by
  induction chars generalizing read offset with
  | nil =>
    refine ⟨offset + 1, ?_⟩
    rw [List.nil_append, List.append_nil]
    unfold scanString
    rfl
  | cons c chars ih =>
    simp only [List.all_cons, isPlain, Bool.and_eq_true, bne_iff_ne, decide_eq_true_eq] at plain
    obtain ⟨⟨⟨hquote, hslash⟩, hcontrol⟩, plain⟩ := plain
    obtain ⟨after, hafter⟩ := ih plain (c :: read) (offset + c.utf8Size)
    refine ⟨after, ?_⟩
    rw [List.cons_append]
    unfold scanString
    simp only [if_neg hquote, if_neg hslash]
    rw [if_neg (Nat.not_lt.mpr hcontrol)]
    simpa [Reading.unpaired, Reading.push, Except.map] using hafter

end Lexeme

open Lexeme

variable {chars key value others : List Char} {good : Source → Prop} {goodRest : Entries → Prop}

/-! ## Values -/

/-- A string as it is written. -/
def Source.quotedChars (chars : List Char) : List Char := '"' :: (chars ++ ['"'])

theorem Source.lays_quotedChars (plain : chars.all isPlain = true) :
    Source.Lays (quotedChars chars) fun source =>
      ∃ start stop, source = .scalar start stop (.string (String.ofList chars)) := by
  intro rest offset fuel hfuel
  obtain ⟨after, hscan⟩ := scanString_plain plain [] rest (offset + 1)
  cases fuel with
  | zero => cases hfuel
  | succ fuel =>
    refine ⟨_, after, ?_, offset, after, rfl⟩
    rw [quotedChars, List.cons_append, List.append_assoc, List.singleton_append]
    simp only [valueAt]
    rw [if_neg (by decide), if_neg (by decide), if_neg (by decide), if_neg (by decide),
      if_pos (by decide)]
    simp only [Reading.start, hscan]
    rfl

theorem Source.lays_object {good : Entries → Prop} (h : Entries.Lays true chars good) :
    Source.Lays ('{' :: chars) fun source =>
      ∃ start entries, source = .object start entries ∧ good entries := by
  intro rest offset fuel hfuel
  cases fuel with
  | zero => cases hfuel
  | succ fuel =>
    obtain ⟨entries, after, hentries, hgood⟩ :=
      h rest (offset + 1) fuel (Nat.le_of_succ_le_succ hfuel)
    refine ⟨.object offset entries, after, ?_, offset, entries, rfl, hgood⟩
    rw [List.cons_append]
    simp only [valueAt]
    rw [if_neg (by decide), if_neg (by decide), if_neg (by decide), if_neg (by decide),
      if_neg (by decide), if_neg (by decide), if_pos (by decide), hentries]

/-! ## Entries -/

namespace Entries

/-- The first entry of an object as it is written, and what follows it. -/
def entryChars (key value others : List Char) : List Char :=
  '"' :: (key ++ '"' :: ':' :: (value ++ others))

theorem lays_close (first : Bool) :
    Entries.Lays first ['}'] fun entries => ∃ stop, entries = .close stop := by
  intro rest offset fuel hfuel
  cases fuel with
  | zero => cases hfuel
  | succ fuel =>
    refine ⟨.close (offset + 1), offset + 1, ?_, offset + 1, rfl⟩
    rw [List.singleton_append]
    simp only [Source.entriesAt, Source.nextEntry]
    rw [skipSpace_of_not_space (by decide)]
    rfl

theorem nextEntry_quote (text : List Char) (offset : Nat) :
    Source.nextEntry true ('"' :: text) offset = .ok ⟨'"' :: text, offset⟩ := by
  simp only [Source.nextEntry]
  rw [skipSpace_of_not_space (by decide)]
  rfl

/-- The next entry after a comma is laid out like the first one of an object. -/
theorem entriesAt_comma (fuel : Nat) (text : List Char) (offset : Nat) :
    Source.entriesAt (fuel + 1) false (',' :: '"' :: text) offset =
      Source.entriesAt (fuel + 1) true ('"' :: text) (offset + 1) := by
  have hcomma : Source.nextEntry false (',' :: '"' :: text) offset =
      .ok ⟨'"' :: text, offset + 1⟩ := by
    simp only [Source.nextEntry]
    rw [skipSpace_of_not_space (by decide)]
    simp only
    rw [if_neg (by decide), if_neg (by decide), if_pos (by decide),
      skipSpace_of_not_space (by decide)]
    rfl
  simp only [Source.entriesAt, hcomma, nextEntry_quote]

/-- The name of an entry is followed by its colon and its value, without blanks. -/
theorem keyAt_plain (plain : key.all isPlain = true) {c : Char} (hc : isSpace c = false)
    (rest : List Char) (offset : Nat) :
    ∃ name after, Source.keyAt (key ++ '"' :: ':' :: c :: rest) offset =
      .ok (name, ⟨c :: rest, after⟩) ∧ name.name = .ok (String.ofList key) := by
  obtain ⟨after, hscan⟩ := scanString_plain plain [] (':' :: c :: rest) offset
  refine ⟨⟨.ok (String.ofList key), key ++ '"' :: ':' :: c :: rest,
    Source.keyStop ⟨':' :: c :: rest, after⟩⟩, after + 1, ?_, rfl⟩
  simp only [Source.keyAt, Reading.start, hscan]
  rw [skipSpace_of_not_space (by decide)]
  simp only
  rw [if_pos trivial, skipSpace_of_not_space hc]
  rfl

theorem lays_entry (plain : key.all isPlain = true) {c : Char} (hc : isSpace c = false)
    (hvalue : Source.Lays (c :: value) good) (hothers : Entries.Lays false others goodRest) :
    Entries.Lays true (entryChars key (c :: value) others) fun entries =>
      ∃ name inner rest, entries = .entry name inner rest ∧
        name.name = .ok (String.ofList key) ∧ good inner ∧ goodRest rest := by
  intro rest offset fuel hfuel
  cases fuel with
  | zero => cases hfuel
  | succ fuel =>
    simp only [entryChars, List.length_cons, List.length_append] at hfuel
    obtain ⟨name, start, hkey, hname⟩ :=
      keyAt_plain plain hc (value ++ (others ++ rest)) (offset + 1)
    obtain ⟨inner, there, hinner, hgood⟩ :=
      hvalue (others ++ rest) start fuel (by rw [List.length_cons]; omega)
    obtain ⟨entries, stop, hentries, hgoodRest⟩ := hothers rest there fuel (by omega)
    refine ⟨.entry name inner entries, stop, ?_, name, inner, entries, rfl, hname, hgood,
      hgoodRest⟩
    simp only [entryChars, List.cons_append, List.append_assoc] at hinner ⊢
    simp only [Source.entriesAt, nextEntry_quote, hkey, hinner, hentries]

theorem lays_next {good : Entries → Prop} (h : Entries.Lays true ('"' :: chars) good) :
    Entries.Lays false (',' :: '"' :: chars) good := by
  intro rest offset fuel hfuel
  cases fuel with
  | zero => cases hfuel
  | succ fuel =>
    rw [List.cons_append, List.cons_append, entriesAt_comma]
    exact h rest (offset + 1) (fuel + 1) (Nat.le_of_succ_le hfuel)

end Entries

end SchemaDoc
