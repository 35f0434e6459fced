import SchemaDoc.Definition.Format
import SchemaDoc.Proofs.Definition.Chain
import SchemaDoc.Proofs.Source.Layout

/-!
# Chains as text

A chain of definitions is what a text says, so the files that need a large cap are files that
load. The text is written without blanks, and its layout is told part by part.
-/
namespace SchemaDoc

namespace Chain

/-! ## The characters -/

def nameChars (k : Nat) : List Char := List.replicate (k + 1) 'x'

/-- A reference to the definition of a place. -/
def referenceChars (k : Nat) : List Char :=
  '{' :: Entries.entryChars "kind".toList (Source.quotedChars "ref".toList)
    (',' :: Entries.entryChars "name".toList (Source.quotedChars (nameChars k)) ['}'])

/-- The links of some places after those of others. -/
def linksChars : List Nat → List Char
  | [] => ['}']
  | k :: rest => ',' :: Entries.entryChars (nameChars k) (referenceChars (k - 1)) (linksChars rest)

/-- A chain of one more definition than the given number. -/
def fileChars (last : Nat) : List Char :=
  '{' :: Entries.entryChars "definitions".toList
    ('{' :: Entries.entryChars (nameChars 0) (referenceChars 0)
      (linksChars ((List.range last).map Nat.succ)))
    (',' :: Entries.entryChars "root".toList (referenceChars last) ['}'])

def text (last : Nat) : String := String.ofList (fileChars last)

example : text 0 =
    "\x7b\"definitions\":\x7b\"x\":\x7b\"kind\":\"ref\",\"name\":\"x\"\x7d\x7d," ++
      "\"root\":\x7b\"kind\":\"ref\",\"name\":\"x\"\x7d\x7d" := by
  decide

/-! ## References -/

theorem plain_nameChars (k : Nat) : (nameChars k).all Lexeme.isPlain = true := by
  rw [nameChars, List.all_eq_true]
  intro c mem
  rw [List.eq_of_mem_replicate mem]
  rfl

/-- A reference as it is read from its entries. -/
theorem read_reference {start : Nat} {kind field : Key} {a b c d stop : Nat} {target : String}
    (hkind : kind.name = .ok "kind") (hfield : field.name = .ok "name") (room : Nat) :
    Definition.read (.text (room + 1)) (.object start (.entry kind (.scalar a b (.string "ref"))
      (.entry field (.scalar c d (.string target)) (.close stop)))) = .ok (referTo target) := by
  -- The entries are read twice: for the annotations, of which there are none, and for the form.
  have hnotes : Definition.notesRecord.readEntries (.text room) Definition.notesRecord.blank
      (.entry kind (.scalar a b (.string "ref"))
        (.entry field (.scalar c d (.string target)) (.close stop))) =
      .ok (Definition.notesRecord.blank, stop) := by
    simp [Record.readEntries, Key.read, hkind, hfield, Record.refusal?, Record.slot?,
      Definition.notesRecord, Slot.defaulted, Slot.of, Record.other, Reader.keep, Reader.json,
      PathStep.into, Entries.ended, Except.map, Except.mapError, bind, Except.bind]
  have hkept : (Entries.entry kind (.scalar a b (.string "ref"))
      (.entry field (.scalar c d (.string target)) (.close stop))).without
        Definition.notesRecord.names = .entry kind (.scalar a b (.string "ref"))
          (.entry field (.scalar c d (.string target)) (.close stop)) := by
    simp [Entries.without, hkind, hfield, Record.names, Definition.notesRecord, Slot.defaulted,
      Slot.of]
  have hform : Form.ofKept (Definition.readWithin 0) (.entry kind (.scalar a b (.string "ref"))
      (.entry field (.scalar c d (.string target)) (.close stop))) stop = .ok (.ref target) := by
    simp [Form.ofKept, Form.kindOf, Entries.valuesOf, hkind, hfield, Reader.variant,
      Form.Kind.variants, List.lookup_cons, Form.recordOf, Record.ofEntries, Entries.without,
      Record.readEntries, Key.read, Record.refusal?, Record.slot?, Slot.required, Slot.of,
      Reader.string, PathStep.into, Entries.ended, Record.complete, needed, Form.Draft.blank,
      Except.map, Except.mapError, bind, Except.bind, pure, Except.pure]
  simp only [Definition.read, Source.depth, Entries.depth, Definition.readWithin, Origin.enter]
  simp only [bind, Except.bind, hnotes, hkept]
  rw [show max 0 (max 0 0) = 0 from rfl, hform]
  rfl

theorem lays_referenceChars (k : Nat) : Source.Lays (referenceChars k) fun source =>
    ∀ room, Definition.read (.text (room + 1)) source = .ok (referTo (name k)) := by
  have plainName : "name".toList.all Lexeme.isPlain = true := by decide
  have plainKind : "kind".toList.all Lexeme.isPlain = true := by decide
  have plainRef : "ref".toList.all Lexeme.isPlain = true := by decide
  have htarget := Entries.lays_entry plainName (by decide)
    (Source.lays_quotedChars (plain_nameChars k)) (Entries.lays_close false)
  have hkind := Entries.lays_entry plainKind (by decide)
    (Source.lays_quotedChars plainRef) (Entries.lays_next htarget)
  refine (Source.lays_object hkind).imp ?_
  rintro _ ⟨start, _, rfl, kind, _, _, rfl, hkind, ⟨a, b, rfl⟩, field, _, _, rfl, hfield,
    ⟨c, d, rfl⟩, stop, rfl⟩ room
  exact read_reference hkind hfield room

/-! ## Links -/

theorem read_entry {key : Key} {value : Source} {others : Entries} {room k : Nat}
    {definition : Definition} {definitions : List (String × Definition)}
    (hkey : key.name = .ok (name k))
    (hvalue : Definition.read (.text room) value = .ok definition)
    (hothers : Reader.entries Definition.read (.text room) others = .ok definitions) :
    Reader.entries Definition.read (.text room) (.entry key value others) =
      .ok ((name k, definition) :: definitions) := by
  simp only [Reader.entries, Key.read, hkey, hvalue, hothers]
  rfl

theorem lays_linksChars (places : List Nat) : Entries.Lays false (linksChars places) fun entries =>
    ∀ room, Reader.entries Definition.read (.text (room + 1)) entries = .ok (places.map link) := by
  induction places with
  | nil =>
    refine (Entries.lays_close false).imp ?_
    rintro _ ⟨stop, rfl⟩ room
    rfl
  | cons k rest ih =>
    have hlink := Entries.lays_entry (plain_nameChars k) (by decide)
      (lays_referenceChars (k - 1)) ih
    refine (Entries.lays_next hlink).imp ?_
    rintro _ ⟨key, value, others, rfl, hkey, hvalue, hothers⟩ room
    exact read_entry hkey (hvalue room) (hothers room)

/-- All links of a chain, the first one before the others. -/
theorem lays_definitions (last : Nat) :
    Source.Lays ('{' :: Entries.entryChars (nameChars 0) (referenceChars 0)
        (linksChars ((List.range last).map Nat.succ))) fun source =>
      ∀ room, Reader.map Definition.read (.text (room + 2)) source =
        .ok ((List.range (last + 1)).map link) := by
  have hfirst := Entries.lays_entry (plain_nameChars 0) (by decide) (lays_referenceChars 0)
    (lays_linksChars ((List.range last).map Nat.succ))
  refine (Source.lays_object hfirst).imp ?_
  rintro _ ⟨start, _, rfl, key, value, others, rfl, hkey, hvalue, hothers⟩ room
  rw [List.range_succ_eq_map]
  exact read_entry hkey (hvalue room) (hothers room)

/-! ## Files -/

theorem put_of_not_mem {definitions : List (String × Definition)} {name : String}
    (h : name ∉ definitions.map Prod.fst) (definition : Definition) :
    DefinitionFile.put definitions name definition = definitions ++ [(name, definition)] := by
  induction definitions with
  | nil => rfl
  | cons first rest ih =>
    rw [List.map_cons, List.mem_cons, not_or] at h
    rw [DefinitionFile.put, if_neg (Ne.symm h.1), ih h.2, List.cons_append]

theorem foldl_put_of_nodup {definitions written : List (String × Definition)}
    (h : ((definitions ++ written).map Prod.fst).Nodup) :
    written.foldl (fun acc member => DefinitionFile.put acc member.1 member.2) definitions =
      definitions ++ written := by
  induction written generalizing definitions with
  | nil => exact (List.append_nil definitions).symm
  | cons member rest ih =>
    have hnew : member.1 ∉ definitions.map Prod.fst := by
      rw [List.map_append, List.map_cons] at h
      exact fun mem => (List.disjoint_of_nodup_append h) mem List.mem_cons_self
    rw [List.foldl_cons, put_of_not_mem hnew, ih]
    · rw [List.append_assoc, List.singleton_append]
    · rwa [List.append_assoc, List.singleton_append]

/-- A file as it is read from its entries. -/
theorem read_file {start stop : Nat} {first second : Key} {definitions root : Source} {last : Nat}
    (hfirst : first.name = .ok "definitions") (hsecond : second.name = .ok "root")
    (hdefinitions : Reader.map Definition.read (.text 126) definitions =
      .ok ((List.range (last + 1)).map link))
    (hroot : Definition.read (.text 126) root = .ok (referTo (name last))) :
    DefinitionFile.read .freshText
      (.object start (.entry first definitions (.entry second root (.close stop)))) =
        .ok (file (last + 1)) := by
  have hput : ((List.range (last + 1)).map link).foldl
      (fun acc member => DefinitionFile.put acc member.1 member.2) [] =
        (List.range (last + 1)).map link :=
    foldl_put_of_nodup (nodup_names (last + 1))
  simp [DefinitionFile.read, Record.read, Origin.freshText, Origin.enter, Record.ofEntries,
    Record.readEntries, Key.read, hfirst, hsecond, Record.refusal?, Record.slot?,
    DefinitionFile.record, Slot.defaulted, Slot.required, Slot.of, hdefinitions, hroot, hput,
    PathStep.into, Entries.ended, Record.complete, needed, file, Except.map, Except.mapError, bind,
    Except.bind, pure, Except.pure]

/-- A chain of definitions loads. -/
theorem ofText_text (last : Nat) : DefinitionFile.ofText (text last) = .ok (file (last + 1)) := by
  have plainDefinitions : "definitions".toList.all Lexeme.isPlain = true := by decide
  have plainRoot : "root".toList.all Lexeme.isPlain = true := by decide
  have hroot := Entries.lays_entry plainRoot (by decide) (lays_referenceChars last)
    (Entries.lays_close false)
  have hfile := Entries.lays_entry plainDefinitions (by decide) (lays_definitions last)
    (Entries.lays_next hroot)
  have hlays : Source.Lays (fileChars last) _ := Source.lays_object hfile
  obtain ⟨source, after, hsource, start, _, rfl, first, definitions, _, rfl, hfirst, hdefinitions,
    second, root, _, rfl, hsecond, hroot, stop, rfl⟩ :=
      hlays [] 0 (2 * (fileChars last).length + 2) (by omega)
  rw [List.append_nil] at hsource
  have hskip : Lexeme.skipSpace (fileChars last) 0 = ⟨fileChars last, 0⟩ :=
    Lexeme.skipSpace_of_not_space (by decide) _ _
  have htext : Source.ofText (text last) =
      .object start (.entry first definitions (.entry second root (.close stop))) := by
    simp only [Source.ofText, text, String.toList_ofList, hskip, hsource]
  rw [DefinitionFile.ofText, Reader.ofText, htext,
    read_file hfirst hsecond (hdefinitions 124) (hroot 125)]
  rfl

end Chain

end SchemaDoc
