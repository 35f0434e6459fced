import Mathlib.Data.List.Forall2
import SchemaDoc.Proofs.Results
import SchemaDoc.Reading.Basic

/-!
# Sources without their places

Where a value stands in a text is of no account to what it is read as. `Source.unplaced` forgets all
offsets, so sources that differ in nothing else have it in common, and a value in memory is a source
without places. The parts of an array or an object that is written to its end are told as a list.
-/
namespace SchemaDoc

def Fault.unplaced (fault : Fault) : Fault := ⟨fault.malformation, 0⟩

def Key.unplaced (key : Key) : Key := ⟨key.name.mapError Fault.unplaced, [], 0⟩

mutual

/-- The source with all offsets forgotten. -/
def Source.unplaced : Source → Source
  | .scalar _ _ value => .scalar 0 0 value
  | .unreadable _ first fault => .unreadable 0 first fault.unplaced
  | .array _ items => .array 0 items.unplaced
  | .object _ entries => .object 0 entries.unplaced
  | .broken _ first reading skipping => .broken 0 first reading.unplaced skipping.unplaced

def Items.unplaced : Items → Items
  | .close _ => .close 0
  | .gap kind _ => .gap kind 0
  | .item value rest => .item value.unplaced rest.unplaced

def Entries.unplaced : Entries → Entries
  | .close _ => .close 0
  | .gap kind _ => .gap kind 0
  | .stray _ => .stray 0
  | .brokenKey key skipping => .brokenKey key.unplaced skipping.unplaced
  | .loneKey key fault => .loneKey key.unplaced fault.unplaced
  | .entry key value rest => .entry key.unplaced value.unplaced rest.unplaced

end

/-- The sources differ in nothing but places. -/
def Source.Same (source other : Source) : Prop := other.unplaced = source.unplaced

/-- The items are written to the end of their list. -/
inductive Items.Lists : Items → List Source → Prop
  | close (stop : Nat) : Lists (.close stop) []
  | item {value : Source} {rest : Items} {sources : List Source} : Lists rest sources →
      Lists (.item value rest) (value :: sources)

/-- The entries are written to the end of their object, and all names can be read. -/
inductive Entries.Lists : Entries → List (String × Source) → Prop
  | close (stop : Nat) : Lists (.close stop) []
  | entry {key : Key} {name : String} {value : Source} {rest : Entries}
      {members : List (String × Source)} : key.name = .ok name → Lists rest members →
      Lists (.entry key value rest) ((name, value) :: members)

/-- The names that can be read. -/
def Entries.names : Entries → List String
  | .entry key _ rest =>
    match key.name with
    | .ok name => name :: rest.names
    | .error _ => rest.names
  | _ => []

mutual

/-- No object in the source has two members of one name. -/
def Source.Distinct : Source → Prop
  | .array _ items => items.Distinct
  | .object _ entries => entries.names.Nodup ∧ entries.Distinct
  | _ => True

def Items.Distinct : Items → Prop
  | .item value rest => value.Distinct ∧ rest.Distinct
  | _ => True

def Entries.Distinct : Entries → Prop
  | .entry _ value rest => value.Distinct ∧ rest.Distinct
  | _ => True

end

/-! ## Sources that differ in places only -/

theorem Source.Same.symm {source other : Source} (h : source.Same other) : other.Same source :=
  Eq.symm h

mutual

theorem Source.depth_unplaced : ∀ source : Source, source.unplaced.depth = source.depth
  | .scalar .. => rfl
  | .unreadable .. => rfl
  | .array _ items => congrArg (· + 1) items.depth_unplaced
  | .object _ entries => congrArg (· + 1) entries.depth_unplaced
  | .broken .. => rfl

theorem Items.depth_unplaced : ∀ items : Items, items.unplaced.depth = items.depth
  | .close _ => rfl
  | .gap .. => rfl
  | .item value rest => congrArg₂ max value.depth_unplaced rest.depth_unplaced

theorem Entries.depth_unplaced : ∀ entries : Entries, entries.unplaced.depth = entries.depth
  | .close _ => rfl
  | .gap .. => rfl
  | .stray _ => rfl
  | .brokenKey .. => rfl
  | .loneKey .. => rfl
  | .entry _ value rest => congrArg₂ max value.depth_unplaced rest.depth_unplaced

end

theorem Source.Same.depth_eq {source other : Source} (h : source.Same other) :
    other.depth = source.depth := by
  rw [← other.depth_unplaced, h, source.depth_unplaced]

theorem Entries.names_unplaced (entries : Entries) : entries.unplaced.names = entries.names := by
  fun_induction Entries.names entries with
  | case1 key value rest name readable ih =>
    simp only [Entries.unplaced, Entries.names, Key.unplaced, readable, Except.mapError, ih]
  | case2 key value rest fault unreadable ih =>
    simp only [Entries.unplaced, Entries.names, Key.unplaced, unreadable, Except.mapError, ih]
  | case3 entries noEntry =>
    cases entries with
    | entry key value rest => exact (noEntry key value rest rfl).elim
    | _ => rfl

mutual

theorem Source.distinct_unplaced : ∀ source : Source, source.unplaced.Distinct ↔ source.Distinct
  | .scalar .. => .rfl
  | .unreadable .. => .rfl
  | .array _ items => items.distinct_unplaced
  | .object _ entries =>
    and_congr (by rw [entries.names_unplaced]) entries.distinct_unplaced
  | .broken .. => .rfl

theorem Items.distinct_unplaced : ∀ items : Items, items.unplaced.Distinct ↔ items.Distinct
  | .close _ => .rfl
  | .gap .. => .rfl
  | .item value rest => and_congr value.distinct_unplaced rest.distinct_unplaced

theorem Entries.distinct_unplaced : ∀ entries : Entries,
    entries.unplaced.Distinct ↔ entries.Distinct
  | .close _ => .rfl
  | .gap .. => .rfl
  | .stray _ => .rfl
  | .brokenKey .. => .rfl
  | .loneKey .. => .rfl
  | .entry _ value rest => and_congr value.distinct_unplaced rest.distinct_unplaced

end

theorem Source.Same.distinct {source other : Source} (h : source.Same other)
    (distinct : source.Distinct) : other.Distinct := by
  rw [← other.distinct_unplaced, h, source.distinct_unplaced]
  exact distinct

theorem Key.read_eq_ok_iff {key : Key} {name : String} :
    key.read = .ok name ↔ key.name = .ok name := by
  unfold Key.read
  cases key.name <;> simp [PathStep.into, Except.mapError]

theorem Key.name_of_unplaced {key other : Key} {name : String} (h : other.unplaced = key.unplaced)
    (readable : key.name = .ok name) : other.name = .ok name := by
  have names := congrArg Key.name h
  simp only [Key.unplaced, readable] at names
  exact mapError_eq_ok.mp names

theorem Source.Same.of_array {start : Nat} {items : Items} {other : Source}
    (h : (Source.array start items).Same other) :
    ∃ start' items', other = .array start' items' ∧ items'.unplaced = items.unplaced := by
  cases other <;> simp [Source.Same, Source.unplaced] at h
  exact ⟨_, _, rfl, h⟩

theorem Source.Same.of_object {start : Nat} {entries : Entries} {other : Source}
    (h : (Source.object start entries).Same other) :
    ∃ start' entries', other = .object start' entries' ∧ entries'.unplaced = entries.unplaced := by
  cases other <;> simp [Source.Same, Source.unplaced] at h
  exact ⟨_, _, rfl, h⟩

theorem Source.Same.of_scalar {start stop : Nat} {value : Scalar} {other : Source}
    (h : (Source.scalar start stop value).Same other) :
    ∃ start' stop', other = .scalar start' stop' value := by
  cases other <;> simp [Source.Same, Source.unplaced] at h
  exact ⟨_, _, congrArg _ h⟩

theorem Source.Same.null_iff {source other : Source} (h : source.Same other) :
    (∃ start stop, other = .scalar start stop .null) ↔
      ∃ start stop, source = .scalar start stop .null := by
  constructor
  · rintro ⟨_, _, rfl⟩
    exact h.symm.of_scalar
  · rintro ⟨_, _, rfl⟩
    exact h.of_scalar

/-! ## What is listed -/

theorem Items.Lists.unique {items : Items} {sources others : List Source} (h : items.Lists sources)
    (h' : items.Lists others) : others = sources := by
  induction h generalizing others with
  | close => cases h'; rfl
  | item _ ih =>
    cases h' with
    | item rest => rw [ih rest]

theorem Entries.Lists.unique {entries : Entries} {members others : List (String × Source)}
    (h : entries.Lists members) (h' : entries.Lists others) : others = members := by
  induction h generalizing others with
  | close => cases h'; rfl
  | entry readable _ ih =>
    cases h' with
    | entry readable' rest =>
      cases readable.symm.trans readable'
      rw [ih rest]

theorem Items.Lists.exists_ended {items : Items} {sources : List Source} (h : items.Lists sources) :
    ∃ stop, items.ended = .ok stop := by
  induction h with
  | close stop => exact ⟨stop, rfl⟩
  | item _ ih => exact ih

theorem Entries.Lists.exists_ended {entries : Entries} {members : List (String × Source)}
    (h : entries.Lists members) : ∃ stop, entries.ended = .ok stop := by
  induction h with
  | close stop => exact ⟨stop, rfl⟩
  | entry _ _ ih => exact ih

theorem Items.lists_nil_of_ended {items : Items} {stop : Nat}
    (noItem : ∀ value rest, items = .item value rest → False) (h : items.ended = .ok stop) :
    items.Lists [] := by
  cases items with
  | close stop => exact .close stop
  | gap => cases h
  | item value rest => exact (noItem value rest rfl).elim

theorem Entries.lists_nil_of_ended {entries : Entries} {stop : Nat}
    (noEntry : ∀ key value rest, entries = .entry key value rest → False)
    (h : entries.ended = .ok stop) : entries.Lists [] := by
  cases entries with
  | close stop => exact .close stop
  | gap => cases h
  | stray => cases h
  | brokenKey =>
    obtain ⟨_, -, h⟩ := bind_eq_ok.mp h
    cases h
  | loneKey =>
    obtain ⟨_, -, h⟩ := bind_eq_ok.mp h
    cases h
  | entry key value rest => exact (noEntry key value rest rfl).elim

theorem Entries.Lists.names_eq {entries : Entries} {members : List (String × Source)}
    (h : entries.Lists members) : entries.names = members.map Prod.fst := by
  induction h with
  | close => rfl
  | entry readable _ ih => simp [Entries.names, readable, ih]

theorem Items.Lists.of_same {items others : Items} {sources : List Source} (h : items.Lists sources)
    (same : others.unplaced = items.unplaced) :
    ∃ sources', others.Lists sources' ∧ List.Forall₂ Source.Same sources sources' := by
  induction h generalizing others with
  | close stop =>
    cases others <;> simp [Items.unplaced] at same
    exact ⟨[], .close _, .nil⟩
  | item _ ih =>
    cases others <;> simp [Items.unplaced] at same
    obtain ⟨sources', lists, same'⟩ := ih same.2
    exact ⟨_, .item lists, .cons same.1 same'⟩

theorem Entries.Lists.of_same {entries others : Entries} {members : List (String × Source)}
    (h : entries.Lists members) (same : others.unplaced = entries.unplaced) :
    ∃ members', others.Lists members' ∧
      List.Forall₂ (fun member other => other.1 = member.1 ∧ member.2.Same other.2)
        members members' := by
  induction h generalizing others with
  | close stop =>
    cases others <;> simp [Entries.unplaced] at same
    exact ⟨[], .close _, .nil⟩
  | entry readable _ ih =>
    cases others <;> simp [Entries.unplaced] at same
    obtain ⟨members', lists, same'⟩ := ih same.2.2
    exact ⟨_, .entry (Key.name_of_unplaced same.1 readable) lists, .cons ⟨rfl, same.2.1⟩ same'⟩

theorem Items.Lists.depth_le {items : Items} {sources : List Source} (h : items.Lists sources) :
    ∀ source ∈ sources, source.depth ≤ items.depth := by
  induction h with
  | close => exact List.forall_mem_nil _
  | item _ ih =>
    refine List.forall_mem_cons.mpr ⟨Nat.le_max_left _ _, fun source mem => ?_⟩
    exact Nat.le_trans (ih source mem) (Nat.le_max_right _ _)

theorem Entries.Lists.depth_le {entries : Entries} {members : List (String × Source)}
    (h : entries.Lists members) : ∀ member ∈ members, member.2.depth ≤ entries.depth := by
  induction h with
  | close => exact List.forall_mem_nil _
  | entry _ _ ih =>
    refine List.forall_mem_cons.mpr ⟨Nat.le_max_left _ _, fun member mem => ?_⟩
    exact Nat.le_trans (ih member mem) (Nat.le_max_right _ _)

theorem Items.Lists.distinct {items : Items} {sources : List Source} (h : items.Lists sources)
    (distinct : items.Distinct) : ∀ source ∈ sources, source.Distinct := by
  induction h with
  | close => exact List.forall_mem_nil _
  | item _ ih => exact List.forall_mem_cons.mpr ⟨distinct.1, ih distinct.2⟩

theorem Entries.Lists.distinct {entries : Entries} {members : List (String × Source)}
    (h : entries.Lists members) (distinct : entries.Distinct) :
    ∀ member ∈ members, member.2.Distinct := by
  induction h with
  | close => exact List.forall_mem_nil _
  | entry _ _ ih => exact List.forall_mem_cons.mpr ⟨distinct.1, ih distinct.2⟩

/-! ## Skipping -/

mutual

theorem Source.skip_of_same : ∀ {source other : Source}, source.Same other →
    source.skip = .ok () → other.skip = .ok ()
  | .scalar .., other, same, _ => by
    obtain ⟨_, _, rfl⟩ := same.of_scalar
    rfl
  | .unreadable .., other, same, _ => by
    cases other <;> simp [Source.Same, Source.unplaced] at same
    rfl
  | .array _ items, other, same, skips => by
    obtain ⟨_, others, rfl, inner⟩ := same.of_array
    exact Items.skip_of_same inner skips
  | .object _ entries, other, same, skips => by
    obtain ⟨_, others, rfl, inner⟩ := same.of_object
    exact Entries.skip_of_same inner skips
  | .broken .., _, _, skips => nomatch skips

theorem Items.skip_of_same : ∀ {items others : Items}, others.unplaced = items.unplaced →
    items.skip = .ok () → others.skip = .ok ()
  | .close _, others, same, _ => by
    cases others <;> simp [Items.unplaced] at same
    rfl
  | .gap .., _, _, skips => nomatch skips
  | .item value rest, others, same, skips => by
    cases others <;> simp [Items.unplaced] at same
    obtain ⟨_, first, later⟩ := bind_eq_ok.mp skips
    have first := Source.skip_of_same same.1 first
    have later := Items.skip_of_same same.2 later
    exact bind_eq_ok.mpr ⟨(), first, later⟩

theorem Entries.skip_of_same : ∀ {entries others : Entries}, others.unplaced = entries.unplaced →
    entries.skip = .ok () → others.skip = .ok ()
  | .close _, others, same, _ => by
    cases others <;> simp [Entries.unplaced] at same
    rfl
  | .gap .., _, _, skips => nomatch skips
  | .stray _, _, _, skips => nomatch skips
  | .brokenKey .., _, _, skips => nomatch skips
  | .loneKey .., _, _, skips => nomatch skips
  | .entry _ value rest, others, same, skips => by
    cases others <;> simp [Entries.unplaced] at same
    obtain ⟨_, first, later⟩ := bind_eq_ok.mp skips
    have first := Source.skip_of_same same.2.1 first
    have later := Entries.skip_of_same same.2.2 later
    exact bind_eq_ok.mpr ⟨(), first, later⟩

end

end SchemaDoc
