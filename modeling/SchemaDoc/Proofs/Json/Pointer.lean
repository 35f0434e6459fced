import SchemaDoc.Projection.Location
import SchemaDoc.Proofs.Json.FromText
import SchemaDoc.Proofs.Json.Members

/-!
# Pointers into documents

A pointer leads from a document to one of its values, through members by their names and through
items by their places in decimal. The text of a location, read as a pointer, has the tokens of the
location again, whatever the names of properties are.
-/
namespace SchemaDoc

namespace Json

/-- The item whose place is written so. -/
def itemAt? (items : List Json) (token : String) : Option Json :=
  (items.zipIdx.find? fun item => toString item.2 == token).map Prod.fst

/-- The value one step inside. -/
def child? (value : Json) (token : String) : Option Json :=
  match value with
  | .object members => Members.get? members token
  | .array items => itemAt? items token
  | _ => none

/-- The value that tokens lead to. -/
def resolve? (value : Json) : List String → Option Json
  | [] => some value
  | token :: rest => (value.child? token).bind (resolve? · rest)

theorem resolve?_cons (value : Json) (token : String) (rest : List String) :
    value.resolve? (token :: rest) = (value.child? token).bind (resolve? · rest) := rfl

theorem toString_inj {m n : Nat} (h : toString m = toString n) : m = n := by
  rw [Nat.toString_eq_ofList_toDigits, Nat.toString_eq_ofList_toDigits] at h
  have digits := congrArg (Nat.ofDigitChars 10 · 0) (String.ofList_injective h)
  simpa only [Nat.ofDigitChars_ten_toDigits] using digits

theorem itemAt?_toString (items : List Json) (place : Nat) :
    itemAt? items (toString place) = items[place]? := by
  have shifted : ∀ start, ((items.zipIdx start).find? fun item =>
      toString item.2 == toString (start + place)).map Prod.fst = items[place]? := by
    induction items generalizing place with
    | nil => exact fun _ => rfl
    | cons item rest ih =>
      intro start
      rw [List.zipIdx_cons]
      cases place with
      | zero => simp
      | succ place =>
        have different : (toString start == toString (start + (place + 1))) = false := by
          refine beq_eq_false_iff_ne.mpr fun same => ?_
          have := toString_inj same
          omega
        have shift : start + (place + 1) = start + 1 + place := by omega
        rw [List.find?_cons, different, List.getElem?_cons_succ, shift]
        exact ih place (start + 1)
  have := shifted 0
  rw [Nat.zero_add] at this
  exact this

/-! ## Numbers in arrays -/

/-- Some array in the value has an item that is a number written so. -/
inductive Lists (text : List Char) : Json → Prop
  | number {items : List Json} {n : Number} : .number n ∈ items → n.chars = text →
      Lists text (.array items)
  | item {items : List Json} {item : Json} : item ∈ items → Lists text item →
      Lists text (.array items)
  | member {members : Members} {member : String × Json} : member ∈ members →
      Lists text member.2 → Lists text (.object members)

section

variable {text : List Char}

@[simp] theorem not_lists_string (value : String) : ¬ Lists text (.string value) := nofun

@[simp] theorem not_lists_number (n : Number) : ¬ Lists text (.number n) := nofun

@[simp] theorem not_lists_bool (b : Bool) : ¬ Lists text (.bool b) := nofun

@[simp] theorem not_lists_ofNat (n : Nat) : ¬ Lists text (ofNat n) := nofun

@[simp] theorem lists_object_iff (members : Members) :
    Lists text (.object members) ↔ ∃ member ∈ members, Lists text member.2 := by
  constructor
  · intro h
    cases h with
    | member mem h => exact ⟨_, mem, h⟩
  · rintro ⟨member, mem, h⟩
    exact .member mem h

theorem lists_objects_iff (documents : List Members) :
    Lists text (.array (documents.map Json.object)) ↔
      ∃ document ∈ documents, Lists text (.object document) := by
  constructor
  · intro h
    cases h with
    | number mem =>
      obtain ⟨document, -, h⟩ := List.mem_map.mp mem
      cases h
    | item mem h =>
      obtain ⟨document, hdocument, rfl⟩ := List.mem_map.mp mem
      exact ⟨document, hdocument, h⟩
  · rintro ⟨document, mem, h⟩
    exact .item (List.mem_map_of_mem mem) h

@[simp] theorem not_lists_strings {α : Type} (xs : List α) (name : α → String) :
    ¬ Lists text (.array (xs.map fun x => .string (name x))) := by
  intro h
  cases h with
  | number mem =>
    obtain ⟨_, -, h⟩ := List.mem_map.mp mem
    cases h
  | item mem h =>
    obtain ⟨_, -, rfl⟩ := List.mem_map.mp mem
    cases h

theorem Lists.of_alike {value other : Json} (h : value.Lists text) (alike : value.Alike other) :
    other.Lists text := by
  induction h generalizing other with
  | number mem hchars =>
    cases alike with
    | array items =>
      obtain ⟨item, hitem, alike⟩ := exists_of_mem_right items.flip mem
      cases alike with
      | number same => exact .number hitem (same.symm.trans hchars)
  | item mem _ ih =>
    cases alike with
    | array items =>
      obtain ⟨item, hitem, alike⟩ := exists_of_mem_right items.flip mem
      exact .item hitem (ih alike)
  | member mem _ ih =>
    cases alike with
    | object names values perm =>
      obtain ⟨value, hvalue, alike⟩ := exists_of_mem_right values.flip (List.mem_map_of_mem mem)
      obtain ⟨member, hmember, rfl⟩ := List.mem_map.mp hvalue
      exact .member (perm.mem_iff.mp hmember) (ih alike)

theorem Lists.of_child? {value inner : Json} {token : String} (h : inner.Lists text)
    (found : value.child? token = some inner) : value.Lists text := by
  unfold child? at found
  split at found
  · exact .member (Members.mem_of_get? found) h
  · obtain ⟨item, hitem, rfl⟩ := Option.map_eq_some_iff.mp found
    exact .item (List.fst_mem_of_mem_zipIdx (List.mem_of_find?_eq_some hitem)) h
  · cases found

theorem Lists.of_resolve? {value inner : Json} {tokens : List String} (h : inner.Lists text)
    (found : value.resolve? tokens = some inner) : value.Lists text := by
  induction tokens generalizing value with
  | nil =>
    cases found
    exact h
  | cons token rest ih =>
    obtain ⟨child, hchild, hrest⟩ := Option.bind_eq_some_iff.mp found
    exact (ih hrest).of_child? hchild

/-- A value that lists a number is unlike those that do not. -/
theorem key_ne_of_lists {text : List Char} {value other : Json} (h : value.Lists text)
    (notLists : ¬ other.Lists text) : value.key ≠ other.key :=
  fun same => notLists (h.of_alike (alike_of_key_eq same))

end

/-! ## Enumerations at the end of pointers -/

/-- At the end of a pointer stands an object whose enumeration has the number. -/
def ShowsAt (value : Json) (tokens : List String) (d : Double) : Prop :=
  ∃ (members : Members) (values : List Json), value.resolve? tokens = some (.object members) ∧
    members.get? "enum" = some (.array values) ∧ .number (.ofDouble d) ∈ values

section

variable {members : Members} {items : List Json} {value inner : Json} {tokens : List String}
  {d : Double}

theorem ShowsAt.lists (h : value.ShowsAt tokens d) : value.Lists (Number.ofDouble d).chars := by
  obtain ⟨members, values, found, henum, mem⟩ := h
  have here : (Json.object members).Lists (Number.ofDouble d).chars :=
    .member (Members.mem_of_get? henum) (.number mem rfl)
  exact here.of_resolve? found

theorem showsAt_nil : (Json.object members).ShowsAt [] d ↔
    ∃ values, members.get? "enum" = some (.array values) ∧ .number (.ofDouble d) ∈ values := by
  constructor
  · rintro ⟨_, values, found, h⟩
    cases found
    exact ⟨values, h⟩
  · rintro ⟨values, h⟩
    exact ⟨members, values, rfl, h⟩

theorem showsAt_member {name : String} (found : members.get? name = some inner) :
    (Json.object members).ShowsAt (name :: tokens) d ↔ inner.ShowsAt tokens d := by
  have child : (Json.object members).child? name = some inner := found
  simp only [ShowsAt, resolve?_cons, child, Option.bind_some]

theorem not_showsAt_member {name : String} (absent : members.get? name = none) :
    ¬ (Json.object members).ShowsAt (name :: tokens) d := by
  have child : (Json.object members).child? name = none := absent
  rintro ⟨_, _, found, -⟩
  rw [resolve?_cons, child] at found
  cases found

/-- A place leads to the item there, if there is one. -/
theorem showsAt_item {place : Nat} : (Json.array items).ShowsAt (toString place :: tokens) d ↔
    ∃ inner, items[place]? = some inner ∧ inner.ShowsAt tokens d := by
  have child : (Json.array items).child? (toString place) = items[place]? :=
    itemAt?_toString items place
  simp only [ShowsAt, resolve?_cons, child]
  cases items[place]? <;> simp

/-- Documents that agree on enumerations and on the member a pointer begins with show the same. -/
theorem showsAt_congr {others : Members} (enum : others.get? "enum" = members.get? "enum")
    (first : ∀ token ∈ tokens.head?, others.get? token = members.get? token) :
    (Json.object others).ShowsAt tokens d ↔ (Json.object members).ShowsAt tokens d := by
  cases tokens with
  | nil => rw [showsAt_nil, showsAt_nil, enum]
  | cons token rest =>
    have same := first token rfl
    cases found : members.get? token with
    | none =>
      exact iff_of_false (not_showsAt_member (same.trans found)) (not_showsAt_member found)
    | some inner => rw [showsAt_member (same.trans found), showsAt_member found]

end

end Json

namespace Location

/-- A token without its escapes. -/
def unescape : List Char → List Char
  | '~' :: '0' :: rest => '~' :: unescape rest
  | '~' :: '1' :: rest => '/' :: unescape rest
  | c :: rest => c :: unescape rest
  | [] => []

/-- The tokens of a pointer that is written after a number sign. -/
def readTokens? (text : String) : Option (List String) :=
  match text.toList.splitOn '/' with
  | ['#'] :: tokens => some (tokens.map fun token => String.ofList (unescape token))
  | _ => none

theorem unescape_escape (chars : List Char) : unescape (chars.flatMap escapedChar) = chars := by
  induction chars with
  | nil => rfl
  | cons c rest ih =>
    rw [List.flatMap_cons, escapedChar]
    split
    · next tilde =>
      rw [tilde]
      exact congrArg _ ih
    · next notTilde =>
      split
      · next slash =>
        rw [slash]
        exact congrArg _ ih
      · rw [List.singleton_append, unescape, ih]
        · exact fun _ same _ => notTilde same
        · exact fun _ same _ => notTilde same

theorem not_mem_escape (chars : List Char) : '/' ∉ chars.flatMap escapedChar := by
  intro mem
  obtain ⟨c, -, hc⟩ := List.mem_flatMap.mp mem
  unfold escapedChar at hc
  split at hc
  · simp at hc
  · split at hc
    · simp at hc
    · next notSlash => exact notSlash (List.mem_singleton.mp hc).symm

theorem toList_text (location : Location) :
    (text location).toList =
      ['/'].intercalate (['#'] :: (tokens location).map fun token =>
        token.toList.flatMap escapedChar) := by
  have fold : ∀ (tokens : List String) (start : String),
      (tokens.foldl (fun acc token => acc ++ "/" ++ escape token) start).toList =
        start.toList ++ tokens.flatMap fun token => '/' :: token.toList.flatMap escapedChar := by
    intro tokens
    induction tokens with
    | nil => simp
    | cons token rest ih =>
      intro start
      rw [List.foldl_cons, ih]
      simp [escape]
  rw [text, fold, Json.intercalate_cons, List.flatMap_map]
  rfl

/-- At its slashes, the text of a location is split into its tokens, which have none themselves. -/
theorem splitOn_text (location : Location) :
    (text location).toList.splitOn '/' =
      ['#'] :: (tokens location).map fun token => token.toList.flatMap escapedChar := by
  have noSlash : ∀ token ∈ ['#'] :: (tokens location).map fun token =>
      token.toList.flatMap escapedChar, '/' ∉ token := by
    refine List.forall_mem_cons.mpr ⟨by decide, fun token mem => ?_⟩
    obtain ⟨token, -, rfl⟩ := List.mem_map.mp mem
    exact not_mem_escape token.toList
  rw [toList_text, List.splitOn_intercalate '/' noSlash (List.cons_ne_nil _ _)]

/-- The text of a location, read as a pointer, has its tokens. -/
theorem readTokens?_text (location : Location) :
    readTokens? (text location) = some (tokens location) := by
  unfold readTokens?
  rw [splitOn_text]
  simp only [List.map_map, Function.comp_def, unescape_escape, String.ofList_toList, List.map_id']

end Location

end SchemaDoc
