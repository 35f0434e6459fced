import SchemaDoc.Proofs.Projection.Blame

/-!
# Locations in nested structs

The names of fields are escaped in two replacements, one after the other, and read back by their
inverses in the other order. A replacement works on what the one before it wrote, so the order
matters; all the same, both together do what one pass over the text does. So the location of a
number in nested structs tells the names of the fields that lead to it, whatever they are.
-/
namespace SchemaDoc

namespace Location

/-! ## Replacements -/

/-- Replaces one character by some. -/
def replaceChar (old : Char) (new text : List Char) : List Char :=
  text.flatMap fun c => if c = old then new else [c]

/-- Replaces two characters in a row by one, from the left. -/
def replacePair (first second new : Char) : List Char → List Char
  | c :: d :: rest =>
    if c = first ∧ d = second then new :: replacePair first second new rest
    else c :: replacePair first second new (d :: rest)
  | short => short

section

variable {first second new c : Char}

theorem replacePair_cons_of_ne (h : c ≠ first) (rest : List Char) :
    replacePair first second new (c :: rest) = c :: replacePair first second new rest := by
  cases rest with
  | nil => rfl
  | cons d rest => rw [replacePair, if_neg fun both => h both.1]

theorem replacePair_pair (rest : List Char) :
    replacePair first second new (first :: second :: rest) =
      new :: replacePair first second new rest := by
  rw [replacePair, if_pos ⟨rfl, rfl⟩]

theorem replacePair_cons_of_head {rest : List Char} (h : rest.head? ≠ some second) :
    replacePair first second new (c :: rest) = c :: replacePair first second new rest := by
  cases rest with
  | nil => rfl
  | cons d rest => rw [replacePair, if_neg fun both => h (congrArg some both.2)]

/-- What a replacement begins with is what it writes or what was there. -/
theorem head?_replacePair (first second new : Char) (text : List Char) :
    (replacePair first second new text).head? = some new ∨
      (replacePair first second new text).head? = text.head? := by
  cases text with
  | nil => exact .inr rfl
  | cons c rest =>
    cases rest with
    | nil => exact .inr rfl
    | cons d rest =>
      rw [replacePair]
      split
      · exact .inl rfl
      · exact .inr rfl

end

/-! ## Escapes -/

/-- Without escaped slashes, and then without escaped tildes. -/
def unescapeInTurn (text : List Char) : List Char :=
  replacePair '~' '0' '~' (replacePair '~' '1' '/' text)

/-- Tildes are escaped first, so that those of escaped slashes stay as they are. -/
theorem toList_escape (token : String) :
    (escape token).toList =
      replaceChar '/' ['~', '1'] (replaceChar '~' ['~', '0'] token.toList) := by
  have each : ∀ c, escapedChar c =
      (if c = '~' then ['~', '0'] else [c]).flatMap fun c =>
        if c = '/' then ['~', '1'] else [c] := by
    intro c
    unfold escapedChar
    split
    · rfl
    · simp
  simp only [escape, String.toList_ofList, replaceChar, List.flatMap_assoc, ← each]

/-- The second replacement meets a tilde before a zero only where the text has one. -/
theorem unescapeInTurn_eq (text : List Char) : unescapeInTurn text = unescape text := by
  unfold unescapeInTurn
  fun_induction unescape text with
  | case1 rest ih =>
    rw [replacePair_cons_of_head (by simp), replacePair_cons_of_ne (by decide : '0' ≠ '~'),
      replacePair_pair, ih]
  | case2 rest ih => rw [replacePair_pair, replacePair_cons_of_ne (by decide), ih]
  | case3 c rest notTilde notSlash ih =>
    by_cases tilde : c = '~'
    -- A tilde that begins no escape does not begin one after the first replacement either.
    · have one : rest.head? ≠ some '1' := by
        intro same
        obtain ⟨tail, rfl⟩ := List.head?_eq_some_iff.mp same
        exact notSlash tail tilde rfl
      have zero : (replacePair '~' '1' '/' rest).head? ≠ some '0' := by
        intro same
        rcases head?_replacePair '~' '1' '/' rest with h | h
        · rw [same] at h
          cases h
        · obtain ⟨tail, rfl⟩ := List.head?_eq_some_iff.mp (h.symm.trans same)
          exact notTilde tail tilde rfl
      rw [replacePair_cons_of_head one, replacePair_cons_of_head zero, ih]
    · rw [replacePair_cons_of_ne tilde, replacePair_cons_of_ne tilde, ih]
  | case4 => rfl

/-- A character is escaped by a tilde and a digit, or is no tilde and stays as it is. -/
theorem escapedChar_cases (c : Char) :
    (∃ digit, escapedChar c = ['~', digit] ∧ (digit = '0' ∨ digit = '1')) ∨
      (c ≠ '~' ∧ escapedChar c = [c]) := by
  unfold escapedChar
  split
  · exact .inl ⟨'0', rfl, .inl rfl⟩
  · next notTilde =>
    split
    · exact .inl ⟨'1', rfl, .inr rfl⟩
    · exact .inr ⟨notTilde, rfl⟩

/-- Every tilde in an escaped text begins an escape. -/
theorem escape_of_tilde {chars before after : List Char}
    (h : chars.flatMap escapedChar = before ++ '~' :: after) :
    ∃ digit rest, after = digit :: rest ∧ (digit = '0' ∨ digit = '1') := by
  induction chars generalizing before with
  | nil => simp at h
  | cons c rest ih =>
    rw [List.flatMap_cons] at h
    rcases escapedChar_cases c with ⟨digit, same, isDigit⟩ | ⟨notTilde, same⟩
    · rw [same] at h
      rcases before with _ | ⟨_, _ | ⟨_, before⟩⟩
      · exact ⟨digit, _, (List.cons.inj h).2.symm, isDigit⟩
      · have tilde : digit = '~' := (List.cons.inj (List.cons.inj h).2).1
        rcases isDigit with rfl | rfl <;> cases tilde
      · exact ih (List.cons.inj (List.cons.inj h).2).2
    · rw [same] at h
      cases before with
      | nil => exact absurd (List.cons.inj h).1 notTilde
      | cons _ before => exact ih (List.cons.inj h).2

/-! ## Names of fields -/

/-- The names after `properties` in the tokens of a location in nested structs. -/
def namesIn? : List String → Option (List String)
  | [] => some []
  | "properties" :: name :: rest => (namesIn? rest).map (name :: ·)
  | "additionalProperties" :: rest => namesIn? rest
  | _ => none

/-- The names of fields that the text of a location tells, split at slashes and unescaped. -/
def fieldNames? (text : String) : Option (List String) :=
  match text.toList.splitOn '/' with
  | ['#'] :: tokens => namesIn? (tokens.map fun token => String.ofList (unescapeInTurn token))
  | _ => none

theorem fieldNames?_text (location : Location) :
    fieldNames? (text location) = namesIn? (tokens location) := by
  unfold fieldNames?
  rw [splitOn_text]
  simp only [List.map_map, Function.comp_def, unescapeInTurn_eq, unescape_escape,
    String.ofList_toList, List.map_id']

end Location

/-! ## Structs around a number -/

namespace Schema

/-- Only structs in structs. -/
inductive Hollow : Schema → Prop
  | struct {identity : Identity} {fields : List (Field Schema)} {index : Option Schema}
      {notes : Annotations} : (∀ field ∈ fields, Hollow field.node) →
      (∀ inner, index = some inner → Hollow inner) →
      Hollow (.node identity (.struct fields index) notes)

/-- Structs in structs around one number that JSON cannot write, and the names of the fields that
lead to it. -/
inductive Nests : List String → Schema → Prop
  | number {identity : Identity} {x : Binary64} {notes : Annotations} : x.finite? = none →
      Nests [] (.node identity (.literal (.number x)) notes)
  | field (before : List (Field Schema)) (field : Field Schema) (after : List (Field Schema))
      {identity : Identity} {index : Option Schema} {notes : Annotations} {names : List String} :
      (∀ other ∈ before ++ after, Hollow other.node) →
      (∀ inner, index = some inner → Hollow inner) → Nests names field.node →
      Nests (field.name :: names)
        (.node identity (.struct (before ++ field :: after) index) notes)
  | index {identity : Identity} {fields : List (Field Schema)} {inner : Schema}
      {notes : Annotations} {names : List String} : (∀ field ∈ fields, Hollow field.node) →
      Nests names inner → Nests names (.node identity (.struct fields (some inner)) notes)

/-- With annotations, a schema is projected to the document with the annotations. -/
theorem Yields.annotated {identity : Identity} {shape : Shape Schema} {inField : Bool}
    {document : Members} (h : (Schema.node identity shape .none).Yields inField document)
    (notes : Annotations) :
    (Schema.node identity shape notes).Yields inField (notes.overlay document) := by
  intro follow trail
  obtain ⟨made, hmade, same⟩ := bind_eq_ok.mp (h follow trail)
  obtain rfl : made = document := Except.ok.inj same
  exact bind_eq_ok.mpr ⟨made, hmade, rfl⟩

theorem Hollow.exists_yields {schema : Schema} (h : schema.Hollow) (inField : Bool) :
    ∃ document, schema.Yields inField document := by
  induction h generalizing inField with
  | @struct identity fields index notes _ _ hfields hindex =>
    have each : ∀ field ∈ fields, ∃ property, PropertyOf field property := by
      intro field mem
      obtain ⟨document, hdocument⟩ := hfields field mem true
      exact ⟨_, document, hdocument, rfl⟩
    obtain ⟨properties, hproperties⟩ := exists_forall₂ each
    obtain ⟨others, hothers⟩ := exists_optionRel fun inner same => hindex inner same false
    exact ⟨_, (yields_struct hproperties hothers).annotated notes⟩

theorem Nests.exists_blames {names : List String} {schema : Schema} (h : schema.Nests names)
    (inField : Bool) : ∃ steps, schema.Blames inField steps ∧
      Location.namesIn? (Location.tokens steps) = some names := by
  induction h generalizing inField with
  | number hx => exact ⟨[], blames_number hx, rfl⟩
  | @field before field after identity index notes names hollow _ _ ih =>
    obtain ⟨steps, blamed, read⟩ := ih true
    have earlier : ∀ other ∈ before, ∃ document, other.node.Yields true document :=
      fun other mem => (hollow other (List.mem_append_left _ mem)).exists_yields true
    refine ⟨.property field.name :: steps, blames_field earlier blamed, ?_⟩
    change (Location.namesIn? (Location.tokens steps)).map (field.name :: ·) = _
    rw [read]
    rfl
  | index hollow _ ih =>
    obtain ⟨steps, blamed, read⟩ := ih false
    exact ⟨.additionalProperties :: steps,
      blames_index (fun other mem => (hollow other mem).exists_yields true) blamed, read⟩

end Schema

namespace Projection

open Location

/-- No escaped name has a slash, all tildes in it begin escapes, and it is read back in two
replacements. So the location of a number in nested structs, split at slashes and read back, tells
the names of the fields that lead to it. -/
theorem field_names_read_back :
    (∀ token : String,
      (escape token).toList =
        replaceChar '/' ['~', '1'] (replaceChar '~' ['~', '0'] token.toList) ∧
      '/' ∉ (escape token).toList ∧
      (∀ before after, (escape token).toList = before ++ '~' :: after →
        ∃ digit rest, after = digit :: rest ∧ (digit = '0' ∨ digit = '1')) ∧
      String.ofList (unescapeInTurn (escape token).toList) = token) ∧
    ∀ (names : List String) (graph : Graph) (options : ProjectionOptions),
      graph.root.Nests names → ∃ location,
        graph.project options = .error (.nonFiniteLiteral location) ∧
        fieldNames? (text location) = some names := by
  constructor
  · intro token
    refine ⟨toList_escape token, ?_, fun before after h => ?_, ?_⟩
    · rw [escape, String.toList_ofList]
      exact not_mem_escape token.toList
    · rw [escape, String.toList_ofList] at h
      exact escape_of_tilde h
    · rw [unescapeInTurn_eq, escape, String.toList_ofList, unescape_escape, String.ofList_toList]
  · intro names graph options nests
    obtain ⟨steps, blamed, read⟩ := nests.exists_blames false
    refine ⟨steps, bind_eq_error.mpr (.inl (blamed _ _)), ?_⟩
    rw [fieldNames?_text, read]

/-! ## Names with slashes and tildes -/

def hollowPart : Schema := .make (.step 1) (.struct [] none)

def endless : Schema := .make (.step 2) (.literal (.number (.infinite false)))

def likeRoot : Field Schema :=
  ⟨"", .make (.step 3) (.struct [⟨"#", endless, false⟩] (some hollowPart)), true⟩

def likePath : Field Schema :=
  ⟨"a/b", .make (.step 4) (.struct []
    (some (.make (.step 5) (.struct [likeRoot, ⟨"/", hollowPart, false⟩] none)))), false⟩

/-- A number in structs, under names that are written like escapes, like the root, or not at all. -/
def oddlyNamed : Schema :=
  .make (.step 6) (.struct [⟨"~0", hollowPart, true⟩,
    ⟨"~1", .make (.step 7) (.struct [likePath] none), true⟩] none)

theorem hollow_hollowPart : hollowPart.Hollow :=
  .struct (List.forall_mem_nil _) nofun

theorem nests_oddlyNamed : oddlyNamed.Nests ["~1", "a/b", "", "#"] := by
  have root : likeRoot.node.Nests ["#"] := by
    refine .field [] ⟨"#", endless, false⟩ [] (List.forall_mem_nil _) ?_ (.number rfl)
    rintro inner ⟨⟩
    exact hollow_hollowPart
  have path : likePath.node.Nests ["", "#"] := by
    apply Schema.Nests.index (List.forall_mem_nil _)
    refine .field [] likeRoot [⟨"/", hollowPart, false⟩] ?_ nofun root
    exact List.forall_mem_singleton.mpr hollow_hollowPart
  refine .field [⟨"~0", hollowPart, true⟩] ⟨"~1", _, true⟩ [] ?_ nofun
    (.field [] likePath [] (List.forall_mem_nil _) nofun path)
  exact List.forall_mem_singleton.mpr hollow_hollowPart

theorem field_names_read_back_oddly :
    ∃ location, Graph.project .standard ⟨[], oddlyNamed⟩ = .error (.nonFiniteLiteral location) ∧
      fieldNames? (text location) = some ["~1", "a/b", "", "#"] :=
  field_names_read_back.2 _ ⟨[], oddlyNamed⟩ .standard nests_oddlyNamed

end Projection

end SchemaDoc
