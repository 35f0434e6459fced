import SchemaDoc.Definition.Format
import SchemaDoc.Proofs.Reading.Ensures
import SchemaDoc.Proofs.Schema.Parts

/-!
# The numbers in the literals of a file

Every number that a literal of a file holds stands in the text of the file. So it has a finite
floating point value, and the literal can be projected.
-/
namespace SchemaDoc

/-- All numbers that the literals of a definition hold, however deep inside it, have a property. -/
inductive Definition.Numbers (P : Number → Prop) : Definition → Prop
  | mk {form : Form Definition} {notes : Annotations} :
      (∀ n, form = .literal (.number n) → P n) → (∀ inner, form.Part inner → Numbers P inner) →
        Numbers P (.mk form notes)

/-- The same for the parts of a form. -/
structure Form.Numbers (P : Number → Prop) (form : Form Definition) : Prop where
  literal : ∀ n, form = .literal (.number n) → P n
  parts : ∀ inner, form.Part inner → inner.Numbers P

/-- All numbers in the definitions of a file have a property. -/
structure DefinitionFile.Numbers (P : Number → Prop) (file : DefinitionFile) : Prop where
  definitions : ∀ member ∈ file.definitions, member.2.Numbers P
  root : file.root.Numbers P

/-- What a form is made of has been read from numbers with a property. -/
structure Form.Draft.Numbers (P : Number → Prop) (draft : Form.Draft Definition) : Prop where
  value : ∀ n, draft.value = some (.number n) → P n
  fields : ∀ fields, draft.fields = some fields → ∀ field ∈ fields, field.node.Numbers P
  index : ∀ inner, draft.index.join = some inner → inner.Numbers P
  elements : ∀ elements, draft.elements = some elements →
    ∀ element ∈ elements, element.node.Numbers P
  rest : ∀ inner, draft.rest.join = some inner → inner.Numbers P
  items : ∀ inner, draft.items = some inner → inner.Numbers P
  members : ∀ members, draft.members = some members → ∀ inner ∈ members, inner.Numbers P
  base : ∀ inner, draft.base = some inner → inner.Numbers P

variable {P : Number → Prop}

theorem needed_eq_ok {α : Type} {name : String} {value : Option α} {a : α}
    (h : needed name value = .ok a) : value = some a := by
  unfold needed at h
  split at h
  · cases h
    rfl
  · cases h

theorem forall_mem_getD {α : Type} {good : α → Prop} {values : Option (List α)}
    (h : ∀ list, values = some list → ∀ a ∈ list, good a) : ∀ a ∈ values.getD [], good a := by
  cases values with
  | none => exact List.forall_mem_nil _
  | some list => exact h list rfl

namespace Form

variable {read : Reader Definition}

theorem Draft.numbers_blank : Draft.Numbers P Draft.blank where
  value _ h := nomatch h
  fields _ h := nomatch h
  index _ h := nomatch h
  elements _ h := nomatch h
  rest _ h := nomatch h
  items _ h := nomatch h
  members _ h := nomatch h
  base _ h := nomatch h

theorem field_ensures (h : read.Ensures P (Definition.Numbers P)) :
    Reader.Ensures P (Field.record read).read fun field => field.node.Numbers P := by
  have invariant : Record.Invariant P (Field.record read)
      (fun draft => ∀ inner, draft.type = some inner → inner.Numbers P)
      fun field => field.node.Numbers P := by
    refine ⟨fun inner => nofun, ?_, ?_⟩
    · intro slot mem
      simp only [Field.record, List.mem_cons, List.not_mem_nil, or_false] at mem
      rcases mem with rfl | rfl | rfl
      · exact Slot.keeps_of (Reader.ensures_true _) fun _ _ _ hinv => hinv
      · refine Slot.keeps_of h ?_
        rintro inner draft hinner - _ ⟨⟩
        exact hinner
      · exact Slot.keeps_of (Reader.ensures_true _) fun _ _ _ hinv => hinv
    · intro draft field hinv hfinish
      obtain ⟨name, -, hfinish⟩ := bind_eq_ok.mp hfinish
      obtain ⟨inner, hinner, hfinish⟩ := bind_eq_ok.mp hfinish
      cases hfinish
      exact hinv inner (needed_eq_ok hinner)
  exact invariant.ensures

theorem element_ensures (h : read.Ensures P (Definition.Numbers P)) :
    Reader.Ensures P (Element.record read).read fun element => element.node.Numbers P := by
  have invariant : Record.Invariant P (Element.record read)
      (fun draft => ∀ inner, draft.type = some inner → inner.Numbers P)
      fun element => element.node.Numbers P := by
    refine ⟨fun inner => nofun, ?_, ?_⟩
    · intro slot mem
      simp only [Element.record, List.mem_cons, List.not_mem_nil, or_false] at mem
      rcases mem with rfl | rfl
      · refine Slot.keeps_of h ?_
        rintro inner draft hinner - _ ⟨⟩
        exact hinner
      · exact Slot.keeps_of (Reader.ensures_true _) fun _ _ _ hinv => hinv
    · intro draft element hinv hfinish
      obtain ⟨inner, hinner, hfinish⟩ := bind_eq_ok.mp hfinish
      cases hfinish
      exact hinv inner (needed_eq_ok hinner)
  exact invariant.ensures

/-! ## The records of the kinds -/

theorem bare_invariant {form : Form Definition} (h : form.Numbers P) :
    Record.Invariant P (recordOf.bare form) (Draft.Numbers P) (Numbers P) where
  blank := Draft.numbers_blank
  slots _ mem := nomatch mem
  finish := by
    rintro draft _ - ⟨⟩
    exact h

theorem recordOf_invariant (h : read.Ensures P (Definition.Numbers P)) (kind : Kind) :
    Record.Invariant P (recordOf read kind) (Draft.Numbers P) (Numbers P) := by
  cases kind with
  | string => exact bare_invariant ⟨fun _ => nofun, fun _ => nofun⟩
  | number => exact bare_invariant ⟨fun _ => nofun, fun _ => nofun⟩
  | boolean => exact bare_invariant ⟨fun _ => nofun, fun _ => nofun⟩
  | void => exact bare_invariant ⟨fun _ => nofun, fun _ => nofun⟩
  | unknown => exact bare_invariant ⟨fun _ => nofun, fun _ => nofun⟩
  | hidden => exact bare_invariant ⟨fun _ => nofun, fun _ => nofun⟩
  | literal =>
    refine ⟨Draft.numbers_blank, ?_, ?_⟩
    · intro slot mem
      obtain rfl := List.mem_singleton.mp mem
      refine Slot.keeps_of Reader.ensures_json fun value draft hvalue hinv => ?_
      exact { hinv with value := fun n heq => hvalue n (Option.some.inj heq) }
    · intro draft form hinv hfinish
      obtain ⟨value, hvalue, hfinish⟩ := bind_eq_ok.mp hfinish
      cases hfinish
      refine ⟨?_, fun _ => nofun⟩
      rintro n ⟨⟩
      exact hinv.value n (needed_eq_ok hvalue)
  | struct =>
    refine ⟨Draft.numbers_blank, ?_, ?_⟩
    · intro slot mem
      simp only [recordOf, List.mem_cons, List.not_mem_nil, or_false] at mem
      rcases mem with rfl | rfl
      · refine Slot.keeps_of (field_ensures h).list fun fields draft hfields hinv => ?_
        exact { hinv with fields := fun _ heq => Option.some.inj heq ▸ hfields }
      · refine Slot.keeps_of h.nullable fun index draft hindex hinv => ?_
        exact { hinv with index := hindex }
    · rintro draft form hinv ⟨⟩
      refine ⟨fun _ => nofun, fun inner part => ?_⟩
      generalize hindex : draft.index.join = index at part
      cases part with
      | field mem => exact (forall_mem_getD hinv.fields) _ mem
      | index => exact hinv.index inner hindex
  | tuple =>
    refine ⟨Draft.numbers_blank, ?_, ?_⟩
    · intro slot mem
      simp only [recordOf, List.mem_cons, List.not_mem_nil, or_false] at mem
      rcases mem with rfl | rfl
      · refine Slot.keeps_of (element_ensures h).list fun elements draft helements hinv => ?_
        exact { hinv with elements := fun _ heq => Option.some.inj heq ▸ helements }
      · refine Slot.keeps_of h.nullable fun rest draft hrest hinv => ?_
        exact { hinv with rest := hrest }
    · rintro draft form hinv ⟨⟩
      refine ⟨fun _ => nofun, fun inner part => ?_⟩
      generalize hrest : draft.rest.join = rest at part
      cases part with
      | element mem => exact (forall_mem_getD hinv.elements) _ mem
      | rest => exact hinv.rest inner hrest
  | array =>
    refine ⟨Draft.numbers_blank, ?_, ?_⟩
    · intro slot mem
      simp only [recordOf, List.mem_cons, List.not_mem_nil, or_false] at mem
      rcases mem with rfl | rfl
      · refine Slot.keeps_of h fun items draft hitems hinv => ?_
        exact { hinv with items := fun _ heq => Option.some.inj heq ▸ hitems }
      · exact Slot.keeps_of (Reader.ensures_true _) fun _ _ _ hinv => { hinv with }
    · intro draft form hinv hfinish
      obtain ⟨items, hitems, hfinish⟩ := bind_eq_ok.mp hfinish
      cases hfinish
      refine ⟨fun _ => nofun, fun inner part => ?_⟩
      cases part with
      | items => exact hinv.items _ (needed_eq_ok hitems)
  | union =>
    refine ⟨Draft.numbers_blank, ?_, ?_⟩
    · intro slot mem
      obtain rfl := List.mem_singleton.mp mem
      refine Slot.keeps_of h.list fun members draft hmembers hinv => ?_
      exact { hinv with members := fun _ heq => Option.some.inj heq ▸ hmembers }
    · intro draft form hinv hfinish
      obtain ⟨members, hmembers, hfinish⟩ := bind_eq_ok.mp hfinish
      cases hfinish
      refine ⟨fun _ => nofun, fun inner part => ?_⟩
      cases part with
      | member mem => exact hinv.members members (needed_eq_ok hmembers) inner mem
  | refinement =>
    refine ⟨Draft.numbers_blank, ?_, ?_⟩
    · intro slot mem
      simp only [recordOf, List.mem_cons, List.not_mem_nil, or_false] at mem
      rcases mem with rfl | rfl
      · refine Slot.keeps_of h fun base draft hbase hinv => ?_
        exact { hinv with base := fun _ heq => Option.some.inj heq ▸ hbase }
      · exact Slot.keeps_of (Reader.ensures_true _) fun _ _ _ hinv => { hinv with }
    · intro draft form hinv hfinish
      obtain ⟨base, hbase, hfinish⟩ := bind_eq_ok.mp hfinish
      obtain ⟨constraints, -, hfinish⟩ := bind_eq_ok.mp hfinish
      cases hfinish
      refine ⟨fun _ => nofun, fun inner part => ?_⟩
      cases part with
      | base => exact hinv.base _ (needed_eq_ok hbase)
  | ref =>
    refine ⟨Draft.numbers_blank, ?_, ?_⟩
    · intro slot mem
      obtain rfl := List.mem_singleton.mp mem
      exact Slot.keeps_of (Reader.ensures_true _) fun _ _ _ hinv => { hinv with }
    · intro draft form hinv hfinish
      obtain ⟨name, -, hfinish⟩ := bind_eq_ok.mp hfinish
      cases hfinish
      exact ⟨fun _ => nofun, fun _ => nofun⟩

/-- A form is read from members that were kept. -/
theorem ofKept_numbers (h : read.Ensures P (Definition.Numbers P)) {kept : Entries} {stop : Nat}
    {form : Form Definition} (hnumbers : ∀ n ∈ kept.numbers, P n)
    (hread : ofKept read kept stop = .ok form) : form.Numbers P := by
  obtain ⟨kind, -, hread⟩ := bind_eq_ok.mp hread
  exact (recordOf_invariant h kind).ofEntries
    (fun n mem => hnumbers n (Entries.numbers_without_subset _ _ mem)) hread

end Form

/-! ## Definitions and files -/

namespace Definition

theorem readWithin_ensures (depth : Nat) : (readWithin depth).Ensures P (Numbers P) := by
  induction depth with
  | zero =>
    intro origin source definition _ hread
    cases hread
  | succ depth ih =>
    intro origin source definition hnumbers hread
    unfold readWithin at hread
    split at hread
    · next start entries =>
      obtain ⟨inner, -, hread⟩ := bind_eq_ok.mp hread
      obtain ⟨⟨draft, stop⟩, -, hread⟩ := bind_eq_ok.mp hread
      obtain ⟨notes, -, hread⟩ := bind_eq_ok.mp hread
      obtain ⟨form, hform, hread⟩ := bind_eq_ok.mp hread
      cases hread
      have kept := Form.ofKept_numbers ih
        (fun n mem => hnumbers n (Entries.numbers_without_subset _ _ mem)) (mapError_eq_ok.mp hform)
      exact .mk kept.literal kept.parts
    · cases hread

theorem read_ensures : read.Ensures P (Numbers P) :=
  fun origin source => readWithin_ensures source.depth origin source

end Definition

namespace DefinitionFile

theorem forall_mem_put {good : Definition → Prop} {definitions : List (String × Definition)}
    {name : String} {definition : Definition} (h : ∀ member ∈ definitions, good member.2)
    (hdefinition : good definition) :
    ∀ member ∈ put definitions name definition, good member.2 := by
  induction definitions with
  | nil => exact List.forall_mem_singleton.mpr hdefinition
  | cons first rest ih =>
    obtain ⟨hfirst, hrest⟩ := List.forall_mem_cons.mp h
    unfold put
    split
    · exact List.forall_mem_cons.mpr ⟨hdefinition, hrest⟩
    · exact List.forall_mem_cons.mpr ⟨hfirst, ih hrest⟩

theorem forall_mem_foldl_put {good : Definition → Prop}
    {definitions written : List (String × Definition)}
    (h : ∀ member ∈ definitions, good member.2) (hwritten : ∀ member ∈ written, good member.2) :
    ∀ member ∈ written.foldl (fun acc member => put acc member.1 member.2) definitions,
      good member.2 := by
  induction written generalizing definitions with
  | nil => exact h
  | cons first rest ih =>
    obtain ⟨hfirst, hrest⟩ := List.forall_mem_cons.mp hwritten
    exact ih (forall_mem_put h hfirst) hrest

theorem read_definitions_ensures :
    Reader.Ensures P (fun origin source =>
        (Reader.map Definition.read origin source).map fun written =>
          written.foldl (fun acc member => put acc member.1 member.2) [])
      fun definitions => ∀ member ∈ definitions, member.2.Numbers P := by
  intro origin source definitions hnumbers hread
  obtain ⟨written, hwritten, rfl⟩ := map_eq_ok.mp hread
  exact forall_mem_foldl_put (List.forall_mem_nil _)
    (Definition.read_ensures.map _ _ _ hnumbers hwritten)

theorem read_ensures : read.Ensures P (Numbers P) := by
  have invariant : Record.Invariant P record
      (fun draft => (∀ definitions, draft.definitions = some definitions →
        ∀ member ∈ definitions, member.2.Numbers P) ∧
        ∀ root, draft.root = some root → root.Numbers P) (Numbers P) := by
    refine ⟨⟨fun _ => nofun, fun _ => nofun⟩, ?_, ?_⟩
    · intro slot mem
      simp only [record, List.mem_cons, List.not_mem_nil, or_false] at mem
      rcases mem with rfl | rfl
      · refine Slot.keeps_of read_definitions_ensures fun definitions draft hdefinitions hinv => ?_
        exact ⟨fun _ heq => Option.some.inj heq ▸ hdefinitions, hinv.2⟩
      · refine Slot.keeps_of Definition.read_ensures fun root draft hroot hinv => ?_
        exact ⟨hinv.1, fun _ heq => Option.some.inj heq ▸ hroot⟩
    · intro draft file hinv hfinish
      obtain ⟨root, hroot, hfinish⟩ := bind_eq_ok.mp hfinish
      cases hfinish
      exact ⟨forall_mem_getD hinv.1, hinv.2 root (needed_eq_ok hroot)⟩
  exact invariant.ensures

/-- The numbers in the literals of a file that is read from text are finite. -/
theorem numbers_of_ofText {text : String} {file : DefinitionFile} (h : ofText text = .ok file) :
    file.Numbers Number.IsFinite :=
  read_ensures _ _ file (Source.allFinite_ofText text) (mapError_eq_ok.mp h)

end DefinitionFile

end SchemaDoc
