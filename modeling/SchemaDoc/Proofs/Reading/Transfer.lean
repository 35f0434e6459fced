import SchemaDoc.Proofs.Reading.Values
import SchemaDoc.Reading.Record

/-!
# Readings that correspond

`Reader.Transfers` says of two readers that what the one makes of a source the other makes of every
related source. The sources may come from different places: both from a buffer, both from a text at
the same depth, or neither from a buffer if the second one can be read there at all. There is one
rule for each way to build readers. For records a relation is given for each name; how members are
matched is left open, so that the same rules serve for members in order and for rearranged ones.
-/
namespace SchemaDoc

variable {α β δ : Type}

/-- Where two sources come from that are read in the same way. The number is that of the arrays and
objects that may still be opened if both come from a text. -/
inductive Origin.Matches (room : Nat) : Origin → Origin → Source → Prop
  | text {source : Source} : Matches room (.text room) (.text room) source
  | buffer {source : Source} : Matches room .buffer .buffer source
  | direct {origin origin' : Origin} {source : Source} : origin ≠ .buffer → origin' ≠ .buffer →
      source.Readable origin' → Matches room origin origin' source

theorem Origin.enter_ne_buffer {origin inner : Origin} {start : Nat} (h : origin ≠ .buffer)
    (entered : origin.enter start = .ok inner) : inner ≠ .buffer := by
  cases origin with
  | text room =>
    cases room with
    | zero => cases entered
    | succ room =>
      cases entered
      exact nofun
  | memory =>
    cases entered
    exact nofun
  | buffer => exact absurd rfl h

theorem Origin.Matches.enter {room start : Nat} {origin origin' inner : Origin} {source : Source}
    (h : Matches room origin origin' source) (opens : source.Opens)
    (entered : origin.enter start = .ok inner) :
    ∃ inner', origin'.enter source.start = .ok inner' ∧
      ∀ part, source.Part part → Matches (room - 1) inner inner' part := by
  cases h with
  | text =>
    cases room with
    | zero => cases entered
    | succ room =>
      cases entered
      exact ⟨.text room, rfl, fun _ _ => .text⟩
  | buffer =>
    cases entered
    exact ⟨.buffer, rfl, fun _ _ => .buffer⟩
  | direct first second readable =>
    obtain ⟨inner', entered', parts⟩ := readable.enter opens
    exact ⟨inner', entered', fun part hpart => .direct (enter_ne_buffer first entered)
      (enter_ne_buffer second entered') (parts part hpart)⟩

/-- The second source is readable if it has to be, once the first one comes from a text. -/
theorem Origin.Matches.readable {room : Nat} {origin origin' : Origin} {source : Source}
    (matching : origin.Matches room origin' source)
    (readable : origin = .text room → source.Readable (.text room)) :
    ∀ room', origin' = .text room' → source.Readable origin' := by
  intro room' text
  cases matching with
  | text => exact readable rfl
  | buffer => cases text
  | direct _ _ direct => exact direct

/-- A relation of sources that may depend on how many arrays and objects may still be opened. -/
abbrev SourceRelation := Nat → Source → Source → Prop

/-- What the first reader makes of a source the second one makes of all related sources. -/
def Reader.Transfers (R : SourceRelation) (read read' : Reader α) : Prop :=
  ∀ room origin origin' source source' a, R room source source' →
    origin.Matches room origin' source' → read origin source = .ok a → read' origin' source' = .ok a

/-- The sources differ in nothing but places. -/
def samePlaces : SourceRelation := fun _ source source' => source.Same source'

/-- The sources differ in nothing but places, and no object in them repeats a name. -/
def sameContent : SourceRelation := fun _ source source' => source.Same source' ∧ source.Distinct

/-- The items of the first source are related to those of the second one, one by one. -/
def Itemwise (R : SourceRelation) : SourceRelation := fun room source source' =>
  ∀ start items sources, source = .array start items → items.Lists sources →
    ∃ start' items' sources', source' = .array start' items' ∧ items'.Lists sources' ∧
      List.Forall₂ (R (room - 1)) sources sources'

/-- The members of the first source are related to those of the second one, one by one. -/
def Memberwise (R : String → SourceRelation) : SourceRelation := fun room source source' =>
  ∀ start entries members, source = .object start entries → entries.Lists members →
    ∃ start' entries' members', source' = .object start' entries' ∧ entries'.Lists members' ∧
      List.Forall₂ (fun member member' => member'.1 = member.1 ∧
        R member.1 (room - 1) member.2 member'.2) members members'

theorem itemwise_of_same {R : SourceRelation} {room : Nat} {source source' : Source}
    (h : source.Same source') (hR : ∀ part part', source.Part part → part.Same part' →
      R (room - 1) part part') : Itemwise R room source source' := by
  rintro start items sources rfl lists
  obtain ⟨start', items', rfl, inner⟩ := h.of_array
  obtain ⟨sources', lists', each⟩ := lists.of_same inner
  refine ⟨start', items', sources', rfl, lists', (forall₂_mem each).imp ?_⟩
  rintro part part' ⟨mem, same⟩
  exact hR part part' (.item lists mem) same

theorem memberwise_of_same {R : String → SourceRelation} {room : Nat} {source source' : Source}
    (h : source.Same source') (hR : ∀ name part part', source.Part part → part.Same part' →
      R name (room - 1) part part') : Memberwise R room source source' := by
  rintro start entries members rfl lists
  obtain ⟨start', entries', rfl, inner⟩ := h.of_object
  obtain ⟨members', lists', each⟩ := lists.of_same inner
  refine ⟨start', entries', members', rfl, lists', (forall₂_mem each).imp ?_⟩
  rintro member member' ⟨mem, name, same⟩
  exact ⟨name, hR member.1 member.2 member'.2 (.member lists mem) same⟩

theorem itemwise_of_sameContent {room : Nat} {source source' : Source}
    (h : sameContent room source source') : Itemwise sameContent room source source' :=
  itemwise_of_same h.1 fun _ _ part same => ⟨same, part.distinct h.2⟩

/-! ## Readers -/

namespace Reader

variable {R : SourceRelation} {read read' : Reader α}

theorem Transfers.mono {S : SourceRelation} (h : Transfers R read read')
    (hS : ∀ room source source', S room source source' → R room source source') :
    Transfers S read read' :=
  fun room _ _ _ _ a related => h room _ _ _ _ a (hS _ _ _ related)

theorem Transfers.toSameContent (h : Transfers samePlaces read read') :
    Transfers sameContent read read' :=
  h.mono fun _ _ _ related => related.1

theorem Transfers.map (h : Transfers R read read') (f : α → β) :
    Transfers R (fun origin source => (read origin source).map f)
      fun origin source => (read' origin source).map f := by
  intro room origin origin' source source' b related matching hread
  obtain ⟨a, ha, rfl⟩ := map_eq_ok.mp hread
  exact map_eq_ok.mpr ⟨a, h room _ _ _ _ a related matching ha, rfl⟩

theorem transfers_string : Transfers samePlaces string string := by
  intro room origin origin' source source' text related _ hread
  unfold string at hread
  split at hread
  · cases hread
    obtain ⟨start, stop, rfl⟩ := Source.Same.of_scalar related
    rfl
  · cases hread

theorem transfers_bool : Transfers samePlaces bool bool := by
  intro room origin origin' source source' b related _ hread
  unfold bool at hread
  split at hread
  · cases hread
    obtain ⟨start, stop, rfl⟩ := Source.Same.of_scalar related
    rfl
  · cases hread

/-- A variant is written by name or, but only in a buffer, by its place in the order. -/
theorem variant_eq_ok_iff {variants : Variants α} {origin : Origin} {source : Source} {a : α} :
    variant variants origin source = .ok a ↔
      (∃ start stop name, source = .scalar start stop (.string name) ∧
        variants.lookup name = some a) ∨
      origin = .buffer ∧ ∃ start stop n, source = .scalar start stop (.number (.integer n)) ∧
        0 ≤ n ∧ variants[n.toNat]?.map Prod.snd = some a := by
  unfold variant
  split
  · next start stop name =>
    cases found : variants.lookup name <;> simp [found]
  · next start stop n =>
    by_cases small : n < 0
    · simp [small]
    · cases found : variants[n.toNat]? <;> simp [small, found, Int.not_lt.mp small, Prod.ext_iff]
  · next noName noNumber =>
    constructor
    · exact nofun
    · rintro (⟨_, _, _, rfl, -⟩ | ⟨rfl, _, _, _, rfl, -⟩)
      · exact absurd rfl (noName _ _ _)
      · exact absurd rfl (noNumber _ _ _ rfl)

theorem transfers_variant (variants : Variants α) :
    Transfers samePlaces (variant variants) (variant variants) := by
  intro room origin origin' source source' a related matching hread
  rw [variant_eq_ok_iff] at hread ⊢
  rcases hread with ⟨_, _, name, rfl, found⟩ | ⟨rfl, _, _, n, rfl, found⟩
  · obtain ⟨start, stop, rfl⟩ := Source.Same.of_scalar related
    exact .inl ⟨start, stop, name, rfl, found⟩
  · obtain ⟨start, stop, rfl⟩ := Source.Same.of_scalar related
    cases matching with
    | buffer => exact .inr ⟨rfl, start, stop, n, rfl, found⟩
    | direct first _ _ => exact absurd rfl first

theorem Transfers.nullable (h : Transfers R read read')
    (null : ∀ room source source', R room source source' →
      ((∃ start stop, source' = .scalar start stop .null) ↔
        ∃ start stop, source = .scalar start stop .null)) :
    Transfers R (nullable read) (nullable read') := by
  intro room origin origin' source source' value related matching hread
  unfold Reader.nullable at hread
  split at hread
  · obtain ⟨start, stop, rfl⟩ := (null _ _ _ related).mpr ⟨_, _, rfl⟩
    exact hread
  · next present =>
    obtain ⟨a, ha, rfl⟩ := map_eq_ok.mp hread
    have ha := h room _ _ _ _ a related matching ha
    unfold Reader.nullable
    split
    · next start stop =>
      obtain ⟨_, _, rfl⟩ := (null _ _ _ related).mp ⟨start, stop, rfl⟩
      exact absurd rfl (present _ _)
    · rw [ha]
      rfl

theorem Transfers.list (h : Transfers R read read') :
    Transfers (Itemwise R) (list read) (list read') := by
  intro room origin origin' source source' values related matching hread
  unfold Reader.list at hread
  split at hread
  · obtain ⟨inner, entered, hread⟩ := bind_eq_ok.mp hread
    obtain ⟨sources, lists, each⟩ := items_eq_ok_iff.mp hread
    obtain ⟨start', items', sources', rfl, lists', each'⟩ := related _ _ _ rfl lists
    obtain ⟨inner', entered', parts⟩ := matching.enter trivial entered
    refine bind_eq_ok.mpr ⟨inner', entered', items_eq_ok_iff.mpr ⟨sources', lists', ?_⟩⟩
    refine (forall₂_mem (forall₂_of_common each' each)).imp ?_
    rintro part a ⟨mem, original, -, related, ha⟩
    exact h _ _ _ _ _ a related (parts part (.item lists' mem)) ha
  · cases hread

theorem Transfers.entriesMap (h : Transfers R read read') :
    Transfers (Memberwise fun _ => R) (Reader.map read) (Reader.map read') := by
  intro room origin origin' source source' values related matching hread
  unfold Reader.map at hread
  split at hread
  · obtain ⟨inner, entered, hread⟩ := bind_eq_ok.mp hread
    obtain ⟨members, lists, each⟩ := entries_eq_ok_iff.mp hread
    obtain ⟨start', entries', members', rfl, lists', each'⟩ := related _ _ _ rfl lists
    obtain ⟨inner', entered', parts⟩ := matching.enter trivial entered
    refine bind_eq_ok.mpr ⟨inner', entered', entries_eq_ok_iff.mpr ⟨members', lists', ?_⟩⟩
    refine (forall₂_mem (forall₂_of_common each' each)).imp ?_
    rintro member a ⟨mem, original, -, ⟨name, related⟩, name', ha⟩
    exact ⟨name'.trans name.symm, h _ _ _ _ _ a.2 related (parts _ (.member lists' mem)) ha⟩
  · cases hread

theorem transfers_json : Transfers samePlaces json json := by
  intro room origin origin' source source' value related matching hread
  induction source using Source.induction_on_parts generalizing room origin origin' source' value with
  | step source ih =>
    cases source with
    | scalar start stop scalar =>
      obtain ⟨start', stop', rfl⟩ := Source.Same.of_scalar related
      cases scalar <;> exact hread
    | unreadable => cases hread
    | broken => cases hread
    | array start items =>
      obtain ⟨inner, sources, values, entered, lists, each, rfl⟩ := json_array_eq_ok_iff.mp hread
      obtain ⟨start', items', rfl, same⟩ := Source.Same.of_array related
      obtain ⟨sources', lists', each'⟩ := lists.of_same same
      obtain ⟨inner', entered', parts⟩ := matching.enter trivial entered
      refine json_array_eq_ok_iff.mpr ⟨inner', sources', values, entered', lists', ?_, rfl⟩
      refine (forall₂_mem (forall₂_of_common each' each)).imp ?_
      rintro part value ⟨mem, original, hmem, same, hvalue⟩
      exact ih original (.item lists hmem) _ _ _ _ _ same (parts part (.item lists' mem)) hvalue
    | object start entries =>
      obtain ⟨inner, members, values, entered, lists, each, rfl⟩ :=
        json_object_eq_ok_iff.mp hread
      obtain ⟨start', entries', rfl, same⟩ := Source.Same.of_object related
      obtain ⟨members', lists', each'⟩ := lists.of_same same
      obtain ⟨inner', entered', parts⟩ := matching.enter trivial entered
      refine json_object_eq_ok_iff.mpr ⟨inner', members', values, entered', lists', ?_, rfl⟩
      refine (forall₂_mem (forall₂_of_common each' each)).imp ?_
      rintro member value ⟨mem, original, hmem, ⟨name, same⟩, name', hvalue⟩
      exact ⟨name'.trans name.symm, ih original.2 (.member lists hmem) _ _ _ _ _ same
        (parts _ (.member lists' mem)) hvalue⟩

/-- Items that can be kept can be kept when they stand elsewhere. -/
theorem keepItems_of_same {room place stop : Nat} {origin origin' : Origin} {items items' : Items}
    {sources sources' : List Source} (lists : items.Lists sources) (lists' : items'.Lists sources')
    (same : List.Forall₂ Source.Same sources sources')
    (matching : ∀ source ∈ sources', origin.Matches room origin' source)
    (h : keepItems origin place items = .ok stop) :
    ∃ stop', keepItems origin' place items' = .ok stop' := by
  refine exists_keepItems lists' fun source' mem => ?_
  refine (matching source' mem).readable fun text => ?_
  subst text
  obtain ⟨source, hsource, same⟩ := exists_of_mem_right same mem
  obtain ⟨value, hvalue⟩ := readable_of_keepItems h lists source hsource
  exact ⟨value, transfers_json room _ _ source source' value same .text hvalue⟩

end Reader

end SchemaDoc
