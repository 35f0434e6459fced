import SchemaDoc.Proofs.Results
import SchemaDoc.Proofs.Source.Numbers
import SchemaDoc.Reading.Record

/-!
# What readers make of the numbers in a source

Readers make up no numbers. `Reader.Ensures` says of a reader that what it makes of a source is
good whenever all numbers of the source have some property, and there is one rule for each way to
build readers. A record is read slot by slot into a draft, so its rule asks for an invariant of
drafts that every slot keeps.
-/
namespace SchemaDoc

variable {α β δ : Type} {P : Number → Prop}

/-- All that the reader makes of sources with such numbers is good. -/
def Reader.Ensures (P : Number → Prop) (read : Reader α) (good : α → Prop) : Prop :=
  ∀ origin source a, (∀ n ∈ source.numbers, P n) → read origin source = .ok a → good a

theorem PathStep.into_eq_ok {step : PathStep} {result : Except ReadError α} {a : α} :
    step.into result = .ok a ↔ result = .ok a := mapError_eq_ok

namespace Reader

variable {read : Reader α} {good : α → Prop}

theorem ensures_true (read : Reader α) : read.Ensures P fun _ => True :=
  fun _ _ _ _ _ => trivial

theorem Ensures.nullable (h : read.Ensures P good) :
    (nullable read).Ensures P fun value => ∀ a, value = some a → good a := by
  rintro origin source value hnumbers hread a rfl
  unfold Reader.nullable at hread
  split at hread
  · cases hread
  · obtain ⟨b, hb, heq⟩ := map_eq_ok.mp hread
    cases heq
    exact h _ _ _ hnumbers hb

theorem Ensures.items (h : read.Ensures P good) {origin : Origin} {place : Nat} {written : Items}
    {values : List α} (hnumbers : ∀ n ∈ written.numbers, P n)
    (hread : items read origin place written = .ok values) : ∀ a ∈ values, good a := by
  fun_induction Reader.items read origin place written generalizing values with
  | case1 place value rest ih =>
    obtain ⟨hvalue, hrest⟩ := List.forall_mem_append.mp hnumbers
    obtain ⟨a, ha, hread⟩ := bind_eq_ok.mp hread
    obtain ⟨others, hothers, hread⟩ := bind_eq_ok.mp hread
    cases hread
    exact List.forall_mem_cons.mpr
      ⟨h _ _ _ hvalue (PathStep.into_eq_ok.mp ha), ih hrest hothers⟩
  | case2 place written _ =>
    obtain ⟨stop, -, rfl⟩ := map_eq_ok.mp hread
    exact List.forall_mem_nil _

theorem Ensures.list (h : read.Ensures P good) :
    (list read).Ensures P fun values => ∀ a ∈ values, good a := by
  intro origin source values hnumbers hread
  unfold Reader.list at hread
  split at hread
  · obtain ⟨inner, -, hread⟩ := bind_eq_ok.mp hread
    exact h.items hnumbers hread
  · cases hread

theorem Ensures.entries (h : read.Ensures P good) {origin : Origin} {written : Entries}
    {values : List (String × α)} (hnumbers : ∀ n ∈ written.numbers, P n)
    (hread : entries read origin written = .ok values) : ∀ member ∈ values, good member.2 := by
  fun_induction Reader.entries read origin written generalizing values with
  | case1 key value rest ih =>
    obtain ⟨hvalue, hrest⟩ := List.forall_mem_append.mp hnumbers
    obtain ⟨name, -, hread⟩ := bind_eq_ok.mp hread
    obtain ⟨a, ha, hread⟩ := bind_eq_ok.mp hread
    obtain ⟨others, hothers, hread⟩ := bind_eq_ok.mp hread
    cases hread
    exact List.forall_mem_cons.mpr
      ⟨h _ _ _ hvalue (PathStep.into_eq_ok.mp ha), ih hrest hothers⟩
  | case2 written _ =>
    obtain ⟨stop, -, rfl⟩ := map_eq_ok.mp hread
    exact List.forall_mem_nil _

theorem Ensures.map (h : read.Ensures P good) :
    (map read).Ensures P fun values => ∀ member ∈ values, good member.2 := by
  intro origin source values hnumbers hread
  unfold Reader.map at hread
  split at hread
  · obtain ⟨inner, -, hread⟩ := bind_eq_ok.mp hread
    exact h.entries hnumbers hread
  · cases hread

/-- A number that is read stands in the source. -/
theorem ensures_json : Ensures P json fun value => ∀ n, value = .number n → P n := by
  rintro origin source value hnumbers hread n rfl
  unfold json at hread
  split at hread
  all_goals try cases hread
  · exact hnumbers n (List.mem_singleton_self n)
  · obtain ⟨inner, -, hread⟩ := bind_eq_ok.mp hread
    obtain ⟨items, -, hread⟩ := bind_eq_ok.mp hread
    cases hread
  · obtain ⟨inner, -, hread⟩ := bind_eq_ok.mp hread
    obtain ⟨members, -, hread⟩ := bind_eq_ok.mp hread
    cases hread

end Reader

/-! ## Records -/

/-- Reading the slot into a draft keeps an invariant of drafts. -/
def Slot.Keeps (P : Number → Prop) (slot : Slot δ) (inv : δ → Prop) : Prop :=
  ∀ origin source draft next, (∀ n ∈ source.numbers, P n) → inv draft →
    slot.fill origin source draft = .ok next → inv next

theorem Slot.keeps_of {read : Reader α} {good : α → Prop} {inv : δ → Prop} {name : String}
    {get : δ → Option α} {set : α → δ → δ} {mayEnd : Bool} (h : read.Ensures P good)
    (hset : ∀ a draft, good a → inv draft → inv (set a draft)) :
    (Slot.of name get set mayEnd read).Keeps P inv := by
  intro origin source draft next hnumbers hinv hfill
  obtain ⟨a, ha, rfl⟩ := map_eq_ok.mp hfill
  exact hset a draft (h _ _ _ hnumbers ha) hinv

/-- An invariant of the drafts of a record under which all finished records are good. -/
structure Record.Invariant (P : Number → Prop) (record : Record δ α) (inv : δ → Prop)
    (good : α → Prop) : Prop where
  blank : inv record.blank
  slots : ∀ slot ∈ record.slots, slot.Keeps P inv
  finish : ∀ draft a, inv draft → record.finish draft = .ok a → good a

namespace Record.Invariant

variable {record : Record δ α} {inv : δ → Prop} {good : α → Prop}

theorem readEntries (h : record.Invariant P inv good) {origin : Origin} {draft : δ}
    {written : Entries} {result : δ × Nat} (hnumbers : ∀ n ∈ written.numbers, P n)
    (hinv : inv draft) (hread : record.readEntries origin draft written = .ok result) :
    inv result.1 := by
  fun_induction Record.readEntries record origin draft written generalizing result with
  | case1 draft key value rest known unknown =>
    obtain ⟨hvalue, hrest⟩ := List.forall_mem_append.mp hnumbers
    obtain ⟨name, -, hread⟩ := bind_eq_ok.mp hread
    split at hread
    · cases hread
    · split at hread
      · next slot hslot =>
        obtain ⟨next, hfill, hread⟩ := bind_eq_ok.mp hread
        have keeps := h.slots slot (List.mem_of_find?_eq_some hslot)
        exact known next hrest
          (keeps _ _ _ _ hvalue hinv (PathStep.into_eq_ok.mp hfill)) hread
      · obtain ⟨_, -, hread⟩ := bind_eq_ok.mp hread
        exact unknown hrest hinv hread
  | case2 draft key fault =>
    obtain ⟨name, -, hread⟩ := bind_eq_ok.mp hread
    split at hread <;> cases hread
  | case3 draft written _ _ =>
    obtain ⟨stop, -, rfl⟩ := map_eq_ok.mp hread
    exact hinv

theorem readItems {origin : Origin} {slots : List (Slot δ)} {place : Nat}
    {draft : δ} {written : Items} {result : δ × Nat}
    (hslots : ∀ slot ∈ slots, slot.Keeps P inv) (hnumbers : ∀ n ∈ written.numbers, P n)
    (hinv : inv draft) (hread : record.readItems origin slots place draft written = .ok result) :
    inv result.1 := by
  fun_induction Record.readItems record origin slots place draft written generalizing result with
  | case1 place draft written =>
    obtain ⟨stop, -, rfl⟩ := map_eq_ok.mp hread
    exact hinv
  | case2 slot slots place draft value rest ih =>
    obtain ⟨hvalue, hrest⟩ := List.forall_mem_append.mp hnumbers
    obtain ⟨hslot, hslots⟩ := List.forall_mem_cons.mp hslots
    obtain ⟨next, hfill, hread⟩ := bind_eq_ok.mp hread
    exact ih next hslots hrest (hslot _ _ _ _ hvalue hinv (PathStep.into_eq_ok.mp hfill)) hread
  | case3 slot slots place draft stop _ ih =>
    exact ih (List.forall_mem_cons.mp hslots).2 hnumbers hinv hread
  | case4 => cases hread
  | case5 => cases hread

theorem complete (h : record.Invariant P inv good) {draft : δ} {stop : Nat} {a : α}
    (hinv : inv draft) (hread : record.complete draft stop = .ok a) : good a :=
  h.finish draft a hinv (mapError_eq_ok.mp hread)

theorem ofEntries (h : record.Invariant P inv good) {origin : Origin} {written : Entries} {a : α}
    (hnumbers : ∀ n ∈ written.numbers, P n) (hread : record.ofEntries origin written = .ok a) :
    good a := by
  obtain ⟨⟨draft, stop⟩, hdraft, hread⟩ := bind_eq_ok.mp hread
  exact h.complete (h.readEntries hnumbers h.blank hdraft) hread

theorem ofItems (h : record.Invariant P inv good) {origin : Origin} {written : Items} {a : α}
    (hnumbers : ∀ n ∈ written.numbers, P n) (hread : record.ofItems origin written = .ok a) :
    good a := by
  obtain ⟨⟨draft, stop⟩, hdraft, hread⟩ := bind_eq_ok.mp hread
  exact h.complete (readItems h.slots hnumbers h.blank hdraft) hread

/-- What a record's reader makes is good. -/
theorem ensures (h : record.Invariant P inv good) : Reader.Ensures P record.read good := by
  intro origin source a hnumbers hread
  unfold Record.read at hread
  split at hread
  · obtain ⟨inner, -, hread⟩ := bind_eq_ok.mp hread
    exact h.ofEntries hnumbers hread
  · obtain ⟨inner, -, hread⟩ := bind_eq_ok.mp hread
    exact h.ofItems hnumbers hread
  · cases hread

end Record.Invariant

end SchemaDoc
