import SchemaDoc.Definition.Format
import SchemaDoc.Proofs.Reading.Records

/-!
# Definition files with rearranged members

What a value in a definition file is read as is told by its role. `Source.Rearranged` says of two
values with one role that the second one comes from the first one by rearranging the members of
records at any depth. Nothing else may be rearranged: the entries of maps and all that is free-form
differ in places only.
-/
namespace SchemaDoc

/-- What a value in a definition file is read as. -/
inductive Role where
  /-- A text, a truth value or something free-form. -/
  | plain
  | file
  | definition
  | field
  | element
  | constraint
  | list (role : Role)
  | map (role : Role)

namespace Role

/-- The members of all definitions, whatever their kind. -/
def ofNotes : List (String × Role) :=
  [("kind", plain), ("title", plain), ("description", plain), ("examples", plain)]

/-- The members of the definitions of a kind. -/
def ofKind : Form.Kind → List (String × Role)
  | .literal => [("value", plain)]
  | .struct => [("fields", list field), ("index", definition)]
  | .tuple => [("elements", list element), ("rest", definition)]
  | .array => [("items", definition), ("non_empty", plain)]
  | .union => [("members", list definition)]
  | .refinement => [("base", definition), ("constraints", list constraint)]
  | .ref => [("name", plain)]
  | _ => []

/-- A record with these members knows the listed names, and the values under them have the listed
roles. Which names a definition knows depends on its kind. -/
inductive Knows : Role → List (String × Source) → List (String × Role) → Prop
  | file (members : List (String × Source)) :
      Knows file members [("definitions", map definition), ("root", definition)]
  | definition {members : List (String × Source)} {source : Source} {kind : Form.Kind} :
      members.lookup "kind" = some source →
      Reader.variant Form.Kind.variants .buffer source = .ok kind →
      Knows definition members (ofNotes ++ ofKind kind)
  | field (members : List (String × Source)) :
      Knows field members [("name", plain), ("type", definition), ("optional", plain)]
  | element (members : List (String × Source)) :
      Knows element members [("type", definition), ("optional", plain)]
  | constraint (members : List (String × Source)) :
      Knows constraint members [("kind", plain), ("hints", plain)]

/-- The role of the value under a name. -/
def of (known : List (String × Role)) (name : String) : Role := (known.lookup name).getD plain

end Role

/-- The second source comes from the first one, which has the role, by rearranging members of
records. What is inserted can be read where as many arrays and objects may be opened as there is
room for. -/
inductive Source.Rearranged : Nat → Role → Source → Source → Prop
  | same {room : Nat} {role : Role} {source source' : Source} :
      source.Same source' → Rearranged room role source source'
  | record {room start start' : Nat} {role : Role} {entries entries' : Entries}
      {members members' kept inserted : List (String × Source)} {known : List (String × Role)} :
      entries.Lists members → entries'.Lists members' → role.Knows members known →
      kept.map Prod.fst = members.map Prod.fst →
      (∀ pair ∈ members.zip kept,
        Rearranged (room - 1) (Role.of known pair.1.1) pair.1.2 pair.2.2) →
      (∀ member ∈ inserted,
        member.1 ∉ known.map Prod.fst ∧ member.2.Readable (.text (room - 1))) →
      members'.Perm (kept ++ inserted) → (members'.map Prod.fst).Nodup →
      Rearranged room role (.object start entries) (.object start' entries')
  | unnamed {room start start' : Nat} {role : Role} {items items' : Items}
      {sources sources' : List Source} {known : List (String × Role)} :
      items.Lists sources → items'.Lists sources' → role.Knows [] known →
      sources.length ≤ known.length → sources'.length = sources.length →
      (∀ triple ∈ ((known.map Prod.fst).zip sources).zip sources',
        Rearranged (room - 1) (Role.of known triple.1.1) triple.1.2 triple.2) →
      Rearranged room role (.array start items) (.array start' items')
  | list {room start start' : Nat} {role : Role} {items items' : Items}
      {sources sources' : List Source} :
      items.Lists sources → items'.Lists sources' → sources'.length = sources.length →
      (∀ pair ∈ sources.zip sources', Rearranged (room - 1) role pair.1 pair.2) →
      Rearranged room (.list role) (.array start items) (.array start' items')
  | map {room start start' : Nat} {role : Role} {entries entries' : Entries}
      {members members' : List (String × Source)} :
      entries.Lists members → entries'.Lists members' →
      members'.map Prod.fst = members.map Prod.fst →
      (∀ pair ∈ members.zip members', Rearranged (room - 1) role pair.1.2 pair.2.2) →
      Rearranged room (.map role) (.object start entries) (.object start' entries')

namespace Role

theorem Knows.unique {role : Role} {members : List (String × Source)}
    {known others : List (String × Role)} (h : role.Knows members known)
    (h' : role.Knows members others) : others = known := by
  cases h with
  | definition found tagged =>
    cases h' with
    | definition found' tagged' =>
      cases found.symm.trans found'
      cases tagged.symm.trans tagged'
      rfl
  | _ =>
    cases h'
    rfl

theorem of_eq_plain {known : List (String × Role)} {name : String}
    (h : name ∉ known.map Prod.fst) : Role.of known name = plain := by
  rw [Role.of, lookup_eq_none_of_notMem h]
  rfl

/-- What a kind does not know is plain in all its definitions. -/
theorem of_ofNotes_append {known : List (String × Role)} {name : String}
    (h : name ∉ known.map Prod.fst) : Role.of (ofNotes ++ known) name = plain := by
  rw [Role.of, List.lookup_append, lookup_eq_none_of_notMem h, Option.or_none]
  cases found : ofNotes.lookup name with
  | none => rfl
  | some role =>
    have mem := mem_of_lookup found
    simp only [ofNotes, List.mem_cons, Prod.mk.injEq, List.not_mem_nil, or_false] at mem
    rcases mem with ⟨-, rfl⟩ | ⟨-, rfl⟩ | ⟨-, rfl⟩ | ⟨-, rfl⟩ <;> rfl

end Role

namespace Source.Rearranged

variable {room start : Nat} {role : Role} {source source' : Source}

theorem plain (h : Rearranged room .plain source source') : source.Same source' := by
  cases h with
  | same same => exact same
  | record _ _ knows => cases knows
  | unnamed _ _ knows => cases knows

/-- The members of a record that is known to be one are rearranged. -/
theorem members {entries : Entries} {members : List (String × Source)}
    {known : List (String × Role)} (h : Rearranged room role (.object start entries) source')
    (distinct : (Source.object start entries).Distinct) (lists : entries.Lists members)
    (knows : role.Knows members known) :
    ∃ start' entries' members', source' = .object start' entries' ∧ entries'.Lists members' ∧
      Rearranges (known.map Prod.fst) (fun name room => Rearranged room (Role.of known name))
        (room - 1) members members' := by
  cases h with
  | same same =>
    have everywhere : Recordwise (known.map Prod.fst)
        (fun name room => Rearranged room (Role.of known name)) room
        (.object start entries) source' :=
      recordwise_of_same _ same distinct fun _ _ _ _ same => .same same
    exact everywhere.1 _ _ _ rfl lists
  | record listed lists' knows' names each further perm nodup =>
    obtain rfl := lists.unique listed
    obtain rfl := knows.unique knows'
    exact ⟨_, _, _, rfl, lists', _, _, forall₂_of_zip_names names each, further, perm, nodup⟩
  | map => cases knows

/-- The values of a record without names are rearranged one by one. -/
theorem unnamedItems {items : Items} {sources : List Source} {known : List (String × Role)}
    (h : Rearranged room role (.array start items) source') (lists : items.Lists sources)
    (knows : ∀ members, role.Knows members known)
    (short : sources.length ≤ known.length) :
    ∃ start' items' sources', source' = .array start' items' ∧ items'.Lists sources' ∧
      List.Forall₂ (fun pair source' => Rearranged (room - 1) (Role.of known pair.1) pair.2 source')
        ((known.map Prod.fst).zip sources) sources' := by
  have short : sources.length ≤ (known.map Prod.fst).length := by
    rwa [List.length_map]
  cases h with
  | same same =>
    obtain ⟨start', items', rfl, inner⟩ := same.of_array
    obtain ⟨sources', lists', each⟩ := lists.of_same inner
    refine ⟨start', items', sources', rfl, lists', ?_⟩
    exact (forall₂_zip_left short each).imp fun _ _ same => .same same
  | unnamed listed lists' knows' _ length each =>
    obtain rfl := lists.unique listed
    obtain rfl := (knows []).unique knows'
    refine ⟨_, _, _, rfl, lists', forall₂_of_zip ?_ each⟩
    rw [length, List.length_zip, Nat.min_eq_right short]
  | list => cases knows []

theorem items {items : Items} {sources : List Source}
    (h : Rearranged room (.list role) (.array start items) source') (lists : items.Lists sources) :
    ∃ start' items' sources', source' = .array start' items' ∧ items'.Lists sources' ∧
      List.Forall₂ (Rearranged (room - 1) role) sources sources' := by
  cases h with
  | same same =>
    obtain ⟨start', items', rfl, inner⟩ := same.of_array
    obtain ⟨sources', lists', each⟩ := lists.of_same inner
    exact ⟨start', items', sources', rfl, lists', each.imp fun _ _ => .same⟩
  | unnamed _ _ knows => cases knows
  | list listed lists' length each =>
    obtain rfl := lists.unique listed
    exact ⟨_, _, _, rfl, lists', forall₂_of_zip length each⟩

theorem entries {entries : Entries} {members : List (String × Source)}
    (h : Rearranged room (.map role) (.object start entries) source')
    (lists : entries.Lists members) :
    ∃ start' entries' members', source' = .object start' entries' ∧ entries'.Lists members' ∧
      List.Forall₂ (fun member member' => member'.1 = member.1 ∧
        Rearranged (room - 1) role member.2 member'.2) members members' := by
  cases h with
  | same same =>
    obtain ⟨start', entries', rfl, inner⟩ := same.of_object
    obtain ⟨members', lists', each⟩ := lists.of_same inner
    exact ⟨start', entries', members', rfl, lists', each.imp fun _ _ h => ⟨h.1, .same h.2⟩⟩
  | record _ _ knows => cases knows
  | map listed lists' names each =>
    obtain rfl := lists.unique listed
    exact ⟨_, _, _, rfl, lists', forall₂_of_zip_names names each⟩

/-- An array stays readable if its items do. -/
theorem readable_array_of_forall₂ {room start start' : Nat} {items items' : Items}
    {sources sources' : List Source} (lists : items.Lists sources) (lists' : items'.Lists sources')
    (each : List.Forall₂ (fun part part' => part.Readable (.text (room - 1)) →
      part'.Readable (.text (room - 1))) sources sources')
    (readable : (array start items).Readable (.text room)) :
    (array start' items').Readable (.text room) := by
  obtain ⟨deep, parts⟩ := (readable_text_array_iff lists).mp readable
  refine (readable_text_array_iff lists').mpr ⟨deep, fun part' mem => ?_⟩
  obtain ⟨part, hpart, kept⟩ := exists_of_mem_right each mem
  exact kept (parts part hpart)

/-- What is rearranged can still be read as a value. -/
theorem readable (h : Rearranged room role source source') (readable : source.Readable (.text room)) :
    source'.Readable (.text room) := by
  induction h with
  | same same =>
    obtain ⟨value, hvalue⟩ := readable
    exact ⟨value, Reader.transfers_json _ _ _ _ _ value same .text hvalue⟩
  | @record room _ _ _ _ _ members _ kept _ _ lists lists' _ names _ further perm _ ih =>
    have each : List.Forall₂ (fun member member' => member'.1 = member.1 ∧
        (member.2.Readable (.text (room - 1)) → member'.2.Readable (.text (room - 1))))
        members kept := forall₂_of_zip_names names ih
    obtain ⟨deep, parts⟩ := (readable_text_object_iff lists).mp readable
    refine (readable_text_object_iff lists').mpr ⟨deep, fun member mem => ?_⟩
    rcases List.mem_append.mp (perm.mem_iff.mp mem) with kept | inserted
    · obtain ⟨original, horiginal, -, hmember⟩ := exists_of_mem_right each kept
      exact hmember (parts original horiginal)
    · exact (further member inserted).2
  | @unnamed _ _ _ _ _ _ sources sources' known lists lists' _ short length _ ih =>
    have short : sources.length ≤ (known.map Prod.fst).length := by
      rwa [List.length_map]
    refine readable_array_of_forall₂ lists lists' ?_ readable
    rw [← List.map_snd_zip short, List.forall₂_map_left_iff]
    refine forall₂_of_zip ?_ ih
    rw [length, List.length_zip, Nat.min_eq_right short]
  | list lists lists' length _ ih =>
    exact readable_array_of_forall₂ lists lists' (forall₂_of_zip length ih) readable
  | @map room _ _ _ _ _ members members' lists lists' names _ ih =>
    have each : List.Forall₂ (fun member member' => member'.1 = member.1 ∧
        (member.2.Readable (.text (room - 1)) → member'.2.Readable (.text (room - 1))))
        members members' := forall₂_of_zip_names names ih
    obtain ⟨deep, parts⟩ := (readable_text_object_iff lists).mp readable
    refine (readable_text_object_iff lists').mpr ⟨deep, fun member mem => ?_⟩
    obtain ⟨original, horiginal, -, hmember⟩ := exists_of_mem_right each mem
    exact hmember (parts original horiginal)

end Source.Rearranged

end SchemaDoc
