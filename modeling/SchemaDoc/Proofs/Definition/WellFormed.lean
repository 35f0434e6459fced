import SchemaDoc.Proofs.Definition.Compiling
import SchemaDoc.Proofs.InStep

/-!
# Which definitions compile

The positions of a definition are the definitions in it and itself, children before their parent
and in the order in which they are written. A position is sound if its own form is: a literal is a
scalar, the fields of a struct have different names, a union has a member, and a reference names a
definition. Compiling goes through the positions in this order and stops at the first that is not
sound, so a definition compiles exactly if all of them are, and otherwise the error is that of the
first one. The same holds of files, whose positions are those of the definitions and then of the
root.
-/
namespace SchemaDoc

/-- The definitions that a form is made of, in their order. -/
def Form.parts {δ : Type} : Form δ → List δ
  | .struct fields index => fields.map Field.node ++ index.toList
  | .tuple elements rest => elements.map Element.node ++ rest.toList
  | .array items _ => [items]
  | .union members => members
  | .refinement base _ => [base]
  | _ => []

theorem Form.part_of_mem_parts {δ : Type} {form : Form δ} {inner : δ} (mem : inner ∈ form.parts) :
    form.Part inner := by
  cases form with
  | struct fields index =>
    rcases List.mem_append.mp mem with mem | mem
    · obtain ⟨field, hfield, rfl⟩ := List.mem_map.mp mem
      exact .field hfield
    · obtain rfl : index = some inner := Option.mem_toList.mp mem
      exact .index
  | tuple elements rest =>
    rcases List.mem_append.mp mem with mem | mem
    · obtain ⟨element, helement, rfl⟩ := List.mem_map.mp mem
      exact .element helement
    · obtain rfl : rest = some inner := Option.mem_toList.mp mem
      exact .rest
  | array items nonEmpty =>
    obtain rfl := List.mem_singleton.mp mem
    exact .items
  | union members => exact .member mem
  | refinement base constraints =>
    obtain rfl := List.mem_singleton.mp mem
    exact .base
  | _ => cases mem

/-- A value that a literal may have. -/
def Json.isScalar : Json → Bool
  | .array _ => false
  | .object _ => false
  | _ => true

/-- What a form has to be, apart from its parts, where the given names are defined. -/
def Form.Sound {δ : Type} (names : List String) : Form δ → Prop
  | .literal value => value.isScalar = true
  | .struct fields _ => (fields.map Field.name).Nodup
  | .union members => members ≠ []
  | .ref name => name ∈ names
  | _ => True

instance {δ : Type} (names : List String) (form : Form δ) : Decidable (form.Sound names) :=
  match form with
  | .literal value => inferInstanceAs (Decidable (value.isScalar = true))
  | .struct fields _ => inferInstanceAs (Decidable (fields.map Field.name).Nodup)
  | .union [] => .isFalse fun h => h rfl
  | .union (_ :: _) => .isTrue (List.cons_ne_nil _ _)
  | .ref name => inferInstanceAs (Decidable (name ∈ names))
  | .string | .number | .boolean | .void | .unknown | .hidden => .isTrue trivial
  | .tuple _ _ | .array _ _ | .refinement _ _ => .isTrue trivial

/-- What is wrong with a form that is not sound. Of the fields of a struct, the first one is named
that has the name of an earlier one. -/
inductive Form.Violates {δ : Type} (names : List String) : Form δ → CompileError → Prop
  | literal {value : Json} : value.isScalar = false →
      Violates names (.literal value) (.literal (value.compact ++ " is not a scalar"))
  | struct {before after : List (Field δ)} {field : Field δ} {index : Option δ} :
      (before.map Field.name).Nodup → field.name ∈ before.map Field.name →
      Violates names (.struct (before ++ field :: after) index)
        (.schema (.duplicateField field.name))
  | union : Violates names (.union []) (.schema .emptyUnion)
  | ref {name : String} : name ∉ names → Violates names (.ref name) (.unknownReference name)

/-! ## The first repeated name -/

theorem Schema.firstRepeated_eq_none_iff {seen names : List String} :
    firstRepeated seen names = none ↔ names.Nodup ∧ ∀ name ∈ names, name ∉ seen := by
  induction names generalizing seen with
  | nil => simp [firstRepeated]
  | cons name rest ih =>
    by_cases hseen : name ∈ seen
    · simp [firstRepeated, hseen]
    · have later : (∀ other ∈ rest, other ∉ name :: seen) ↔
          name ∉ rest ∧ ∀ other ∈ rest, other ∉ seen := by
        constructor
        · intro h
          exact ⟨fun mem => h name mem List.mem_cons_self,
            fun other mem hother => h other mem (List.mem_cons_of_mem name hother)⟩
        · rintro ⟨fresh, h⟩ other mem hother
          rcases List.mem_cons.mp hother with rfl | hother
          · exact fresh mem
          · exact h other mem hother
      simp only [firstRepeated, if_neg hseen, ih, later, List.nodup_cons, List.forall_mem_cons]
      tauto

theorem Schema.firstRepeated_append_cons {seen before after : List String} {name : String}
    (nodup : before.Nodup) (fresh : ∀ other ∈ before, other ∉ seen)
    (repeated : name ∈ seen ∨ name ∈ before) :
    firstRepeated seen (before ++ name :: after) = some name := by
  induction before generalizing seen with
  | nil =>
    have hseen : name ∈ seen := by simpa using repeated
    simp [firstRepeated, hseen]
  | cons first rest ih =>
    have hfirst : first ∉ seen := fresh first List.mem_cons_self
    rw [List.cons_append, firstRepeated, if_neg hfirst]
    apply ih (List.nodup_cons.mp nodup).2
    · intro other mem hother
      rcases List.mem_cons.mp hother with rfl | hother
      · exact (List.nodup_cons.mp nodup).1 mem
      · exact fresh other (List.mem_cons_of_mem first mem) hother
    · simp only [List.mem_cons] at repeated ⊢
      tauto

theorem Schema.exists_of_firstRepeated {seen names : List String} {name : String}
    (h : firstRepeated seen names = some name) :
    ∃ before after, names = before ++ name :: after ∧ before.Nodup ∧
      (∀ other ∈ before, other ∉ seen) ∧ (name ∈ seen ∨ name ∈ before) := by
  induction names generalizing seen with
  | nil => cases h
  | cons first rest ih =>
    by_cases hseen : first ∈ seen
    · have heq : first = name := by simpa [firstRepeated, hseen] using h
      subst heq
      exact ⟨[], rest, rfl, List.nodup_nil, List.forall_mem_nil _, .inl hseen⟩
    · rw [firstRepeated, if_neg hseen] at h
      obtain ⟨before, after, rfl, nodup, fresh, repeated⟩ := ih h
      refine ⟨first :: before, after, rfl, ?_, ?_, ?_⟩
      · exact List.nodup_cons.mpr ⟨fun mem => fresh first mem List.mem_cons_self, nodup⟩
      · intro other mem
        rcases List.mem_cons.mp mem with rfl | mem
        · exact hseen
        · exact fun hother => fresh other mem (List.mem_cons_of_mem first hother)
      · simp only [List.mem_cons] at repeated ⊢
        tauto

/-! ## Violations -/

namespace Form

variable {δ : Type} {names : List String} {form : Form δ} {error : CompileError}

/-- What is wrong with a form is a reason for it not to be sound. -/
theorem Violates.not_sound (h : form.Violates names error) : ¬ form.Sound names := by
  cases h with
  | literal value => simp [Sound, value]
  | struct nodup repeated =>
    intro sound
    simp only [Sound, List.map_append, List.map_cons] at sound
    exact (List.nodup_append.mp sound).2.2 _ repeated _ List.mem_cons_self rfl
  | union => exact fun sound => sound rfl
  | ref fresh => exact fresh

/-- A form has one violation at most. -/
theorem Violates.unique {other : CompileError} (h : form.Violates names error)
    (hother : form.Violates names other) : error = other := by
  cases form with
  | struct fields index =>
    have named : ∀ {error}, (Form.struct fields index).Violates names error → ∃ name,
        error = .schema (.duplicateField name) ∧
          Schema.firstRepeated [] (fields.map Field.name) = some name := by
      intro error h
      cases h with
      | @struct before after field _ nodup repeated =>
        refine ⟨field.name, rfl, ?_⟩
        rw [List.map_append, List.map_cons]
        exact Schema.firstRepeated_append_cons nodup (by simp) (.inr repeated)
    obtain ⟨name, rfl, hname⟩ := named h
    obtain ⟨name', rfl, hname'⟩ := named hother
    rw [Option.some.inj (hname.symm.trans hname')]
  | literal => cases h; cases hother; rfl
  | union => cases h; cases hother; rfl
  | ref => cases h; cases hother; rfl
  | _ => cases h

theorem violates_of_firstRepeated {fields : List (Field δ)} {index : Option δ} {name : String}
    (h : Schema.firstRepeated [] (fields.map Field.name) = some name) :
    (Form.struct fields index).Violates names (.schema (.duplicateField name)) := by
  obtain ⟨before, after, heq, nodup, -, repeated⟩ := Schema.exists_of_firstRepeated h
  obtain ⟨first, later, rfl, rfl, hlater⟩ := List.map_eq_append_iff.mp heq
  obtain ⟨field, rest, rfl, rfl, rfl⟩ := List.map_eq_cons_iff.mp hlater
  exact .struct nodup (by simpa using repeated)

end Form

namespace Definition

/-- The definitions inside a definition and itself, children before their parent. -/
def positions (definition : Definition) : List Definition :=
  definition.form.parts.attach.flatMap (fun inner => inner.1.positions) ++ [definition]
termination_by sizeOf definition
decreasing_by
  have smaller := (Form.part_of_mem_parts inner.2).sizeOf_lt
  cases definition with
  | mk form notes =>
    simp only [Definition.form, Definition.mk.sizeOf_spec] at smaller ⊢
    omega

theorem positions_eq (definition : Definition) :
    definition.positions = definition.form.parts.flatMap positions ++ [definition] := by
  rw [positions, List.flatMap_subtype (g := positions) fun _ _ => rfl, List.unattach_attach]

variable {α β : Type} {names : List String} {place : Identity}

/-- The first of some positions that is not sound. -/
def firstUnsound (names : List String) (positions : List Definition) : Option Definition :=
  positions.find? fun position => !decide (position.form.Sound names)

/-- A step that goes through some positions: it has a value if all of them are sound, and else the
error of the first that is not. -/
def Decides (names : List String) (positions : List Definition)
    (result : Except CompileError α) : Prop :=
  match firstUnsound names positions with
  | none => ∃ a, result = .ok a
  | some position => ∃ error, result = .error error ∧ position.form.Violates names error

theorem decides_ok (a : α) : Decides names [] (.ok a : Except CompileError α) := ⟨a, rfl⟩

/-- A position by itself. -/
theorem decides_position (definition : Definition) {result : Except CompileError α}
    (sound : definition.form.Sound names → ∃ a, result = .ok a)
    (unsound : ¬ definition.form.Sound names →
      ∃ error, result = .error error ∧ definition.form.Violates names error) :
    Decides names [definition] result := by
  unfold Decides firstUnsound
  by_cases h : definition.form.Sound names
  · simpa [h] using sound h
  · simpa [h] using unsound h

theorem Decides.bind {positions others : List Definition} {result : Except CompileError α}
    {next : α → Except CompileError β} (h : Decides names positions result)
    (hnext : ∀ a, result = .ok a → Decides names others (next a)) :
    Decides names (positions ++ others) (result >>= next) := by
  unfold Decides firstUnsound at *
  rw [List.find?_append]
  cases hfirst : positions.find? fun position => !decide (position.form.Sound names) with
  | none =>
    rw [hfirst] at h
    obtain ⟨a, rfl⟩ := h
    exact hnext a rfl
  | some position =>
    rw [hfirst] at h
    obtain ⟨error, rfl, violates⟩ := h
    exact ⟨error, rfl, violates⟩

theorem Decides.map {positions : List Definition} {result : Except CompileError α}
    (h : Decides names positions result) (f : α → β) :
    Decides names positions (do return f (← result)) := by
  have mapped : Decides names (positions ++ []) (do return f (← result)) :=
    h.bind fun a _ => decides_ok (f a)
  rwa [List.append_nil] at mapped

theorem decides_mapM {step : β → Except CompileError α} {positions : β → List Definition}
    {xs : List β} (h : ∀ x ∈ xs, Decides names (positions x) (step x)) :
    Decides names (xs.flatMap positions) (xs.mapM step) := by
  induction xs with
  | nil => exact decides_ok []
  | cons x rest ih =>
    obtain ⟨first, others⟩ := List.forall_mem_cons.mp h
    rw [List.flatMap_cons, List.mapM_cons]
    exact first.bind fun a _ => (ih others).map _

/-- Numbering the parts of a definition changes nothing about their positions. -/
theorem decides_zipIdx {step : β × Nat → Except CompileError α} {positions : β → List Definition}
    {xs : List β} {i : Nat} (h : ∀ x ∈ xs, ∀ j, Decides names (positions x) (step (x, j))) :
    Decides names (xs.flatMap positions) ((xs.zipIdx i).mapM step) := by
  have numbered : ((xs.zipIdx i).map Prod.fst).flatMap positions =
      (xs.zipIdx i).flatMap fun pair => positions pair.1 := List.flatMap_map _ _ _
  rw [List.zipIdx_map_fst] at numbered
  rw [numbered]
  apply decides_mapM
  intro (x, j) mem
  exact h x (List.fst_mem_of_mem_zipIdx mem) j

/-! ## Parts -/

theorem decides_compileFields {fields : List (Field Definition)} {i : Nat}
    (parts : ∀ field ∈ fields, ∀ place, Decides names field.node.positions
      (field.node.compile names place)) :
    Decides names (fields.flatMap fun field => field.node.positions)
      (compileFields names place i fields) := by
  rw [compileFields_eq_mapM]
  exact decides_zipIdx fun field mem j => (parts field mem (place.part j)).map _

theorem decides_compileElements {elements : List (Element Definition)} {i : Nat}
    (parts : ∀ element ∈ elements, ∀ place, Decides names element.node.positions
      (element.node.compile names place)) :
    Decides names (elements.flatMap fun element => element.node.positions)
      (compileElements names place i elements) := by
  rw [compileElements_eq_mapM]
  exact decides_zipIdx fun element mem j => (parts element mem (place.part j)).map _

theorem decides_compileMembers {members : List Definition} {i : Nat}
    (parts : ∀ member ∈ members, ∀ place, Decides names member.positions
      (member.compile names place)) :
    Decides names (members.flatMap positions) (compileMembers names place i members) := by
  rw [compileMembers_eq_mapM]
  exact decides_zipIdx fun member mem j => parts member mem (place.part j)

theorem decides_compileOption {definition? : Option Definition}
    (parts : ∀ inner ∈ definition?, ∀ place, Decides names inner.positions
      (inner.compile names place)) :
    Decides names (definition?.toList.flatMap positions)
      (compileOption names place definition?) := by
  cases definition? with
  | none => exact decides_ok none
  | some inner =>
    have only := (parts inner rfl place).map some
    simpa [compileOption] using only

/-! ## Forms -/

theorem literalOf_of_isScalar {value : Json} (h : value.isScalar = true) :
    ∃ literal, literalOf value = .ok literal := by
  cases value with
  | array => cases h
  | object => cases h
  | _ => exact ⟨_, rfl⟩

theorem literalOf_of_not_isScalar {value : Json} (h : value.isScalar = false) :
    literalOf value = .error (.literal (value.compact ++ " is not a scalar")) := by
  cases value with
  | array => rfl
  | object => rfl
  | _ => cases h

variable {notes : Annotations}

/-- A form that is sound whatever the names are needs no check of its own. -/
theorem decides_bare {form : Form Definition} (sound : form.Sound names) (shape : Shape Schema) :
    Decides names [.mk form notes] (.ok shape) :=
  decides_position (.mk form notes) (fun _ => ⟨shape, rfl⟩) fun unsound => absurd sound unsound

theorem decides_literal (value : Json) :
    Decides names [.mk (.literal value) notes] (compileForm names place (.literal value)) := by
  apply decides_position (.mk (.literal value) notes)
  · intro sound
    obtain ⟨literal, hliteral⟩ := literalOf_of_isScalar sound
    exact ⟨.literal literal, by rw [compileForm, hliteral]; rfl⟩
  · intro unsound
    have composite : value.isScalar = false := Bool.eq_false_iff.mpr unsound
    exact ⟨_, by rw [compileForm, literalOf_of_not_isScalar composite]; rfl, .literal composite⟩

theorem decides_struct {fields : List (Field Definition)} {index : Option Definition}
    (parts : ∀ inner, (Form.struct fields index).Part inner → ∀ place,
      Decides names inner.positions (inner.compile names place)) :
    Decides names ((Form.struct fields index).parts.flatMap positions ++
      [.mk (.struct fields index) notes]) (compileForm names place (.struct fields index)) := by
  have hfields : Decides names (fields.flatMap fun field => field.node.positions)
      (compileFields names place 0 fields) :=
    decides_compileFields fun field mem => parts field.node (.field mem)
  have hindex : Decides names (index.toList.flatMap positions)
      (compileOption names (place.part fields.length) index) :=
    decides_compileOption fun inner mem => parts inner (mem ▸ .index)
  have order : (Form.struct fields index).parts.flatMap positions =
      (fields.flatMap fun field => field.node.positions) ++ index.toList.flatMap positions := by
    simp [Form.parts, List.flatMap_append, List.flatMap_map]
  rw [order, List.append_assoc, compileForm]
  refine hfields.bind fun made hmade => hindex.bind fun index' _ => ?_
  have hnames : made.map Field.name = fields.map Field.name :=
    map_eq_of_forall₂ (fun _ _ h => h.2.1) (compileFields_eq_ok hmade)
  apply decides_position (.mk (.struct fields index) notes)
  · intro sound
    have none : Schema.firstRepeated [] (made.map Field.name) = none := by
      rw [hnames]
      exact Schema.firstRepeated_eq_none_iff.mpr ⟨sound, by simp⟩
    exact ⟨.struct made index', by rw [none]⟩
  · intro unsound
    cases hfirst : Schema.firstRepeated [] (fields.map Field.name) with
    | none => exact absurd (Schema.firstRepeated_eq_none_iff.mp hfirst).1 unsound
    | some name =>
      exact ⟨.schema (.duplicateField name), by rw [hnames, hfirst],
        Form.violates_of_firstRepeated hfirst⟩

theorem decides_tuple {elements : List (Element Definition)} {rest : Option Definition}
    (parts : ∀ inner, (Form.tuple elements rest).Part inner → ∀ place,
      Decides names inner.positions (inner.compile names place)) :
    Decides names ((Form.tuple elements rest).parts.flatMap positions ++
      [.mk (.tuple elements rest) notes]) (compileForm names place (.tuple elements rest)) := by
  have helements : Decides names (elements.flatMap fun element => element.node.positions)
      (compileElements names place 0 elements) :=
    decides_compileElements fun element mem => parts element.node (.element mem)
  have hrest : Decides names (rest.toList.flatMap positions)
      (compileOption names (place.part elements.length) rest) :=
    decides_compileOption fun inner mem => parts inner (mem ▸ .rest)
  have order : (Form.tuple elements rest).parts.flatMap positions =
      (elements.flatMap fun element => element.node.positions) ++
        rest.toList.flatMap positions := by
    simp [Form.parts, List.flatMap_append, List.flatMap_map]
  rw [order, List.append_assoc, compileForm]
  exact helements.bind fun made _ => hrest.bind fun rest' _ => decides_bare (by trivial) _

theorem decides_union {members : List Definition}
    (parts : ∀ inner, (Form.union members).Part inner → ∀ place,
      Decides names inner.positions (inner.compile names place)) :
    Decides names (members.flatMap positions ++ [.mk (.union members) notes])
      (compileForm names place (.union members)) := by
  have hmembers : Decides names (members.flatMap positions)
      (compileMembers names place 0 members) :=
    decides_compileMembers fun member mem => parts member (.member mem)
  rw [compileForm]
  refine hmembers.bind fun made hmade => ?_
  have hlength : members.length = made.length := (compileMembers_eq_ok hmade).length_eq
  apply decides_position (.mk (.union members) notes)
  · intro sound
    have nonempty : ¬ made.isEmpty = true := by
      rw [List.isEmpty_iff_length_eq_zero, ← hlength]
      exact fun h => sound (List.length_eq_zero_iff.mp h)
    exact ⟨.union made, if_neg nonempty⟩
  · intro unsound
    obtain rfl : members = [] := Classical.not_not.mp unsound
    cases hmade
    exact ⟨.schema .emptyUnion, rfl, .union⟩

theorem decides_ref (name : String) :
    Decides names [.mk (.ref name) notes] (compileForm names place (.ref name)) := by
  apply decides_position (.mk (.ref name) notes)
  · exact fun sound => ⟨_, if_pos sound⟩
  · exact fun unsound => ⟨_, if_neg unsound, .ref unsound⟩

theorem decides_compileForm {form : Form Definition}
    (parts : ∀ inner, form.Part inner → ∀ place, Decides names inner.positions
      (inner.compile names place)) :
    Decides names (form.parts.flatMap positions ++ [.mk form notes])
      (compileForm names place form) := by
  cases form with
  | literal value => exact decides_literal value
  | struct fields index => exact decides_struct parts
  | tuple elements rest => exact decides_tuple parts
  | array items nonEmpty =>
    have hitems := parts items .items (place.part 0)
    rw [Form.parts, List.flatMap_singleton, compileForm]
    exact hitems.bind fun item _ => decides_bare (by trivial) _
  | union members => exact decides_union parts
  | refinement base constraints =>
    have hbase := parts base .base (place.part 0)
    rw [Form.parts, List.flatMap_singleton, compileForm]
    exact hbase.bind fun base' _ => decides_bare (by trivial) _
  | ref name => exact decides_ref name
  | _ => exact decides_bare (by trivial) _

/-- Compiling a definition goes through its positions. -/
theorem decides_compile (definition : Definition) (names : List String) (place : Identity) :
    Decides names definition.positions (definition.compile names place) := by
  induction definition using Definition.induction_on_parts generalizing place with
  | mk form notes ih =>
    rw [positions_eq, compile]
    exact (decides_compileForm fun inner part place => ih inner part place).map _

/-! ## Whole definitions -/

/-- All positions are sound. -/
def WellFormed (names : List String) (definition : Definition) : Prop :=
  ∀ position ∈ definition.positions, position.form.Sound names

end Definition

namespace DefinitionFile

/-- The positions of the definitions in order, and then those of the root. -/
def positions (file : DefinitionFile) : List Definition :=
  (file.definitions.flatMap fun member => member.2.positions) ++ file.root.positions

/-- All positions of a file are sound. -/
def WellFormed (file : DefinitionFile) : Prop :=
  ∀ position ∈ file.positions, position.form.Sound file.names

theorem decides_compileAll {names : List String} (definitions : List (String × Definition)) :
    Definition.Decides names (definitions.flatMap fun member => member.2.positions)
      (compileAll names definitions) := by
  induction definitions with
  | nil => exact Definition.decides_ok []
  | cons member rest ih =>
    have first := member.2.decides_compile names (.definition member.1)
    rw [List.flatMap_cons, compileAll]
    exact first.bind fun schema _ => ih.map _

theorem decides_compile (file : DefinitionFile) :
    Definition.Decides file.names file.positions file.compile :=
  (decides_compileAll file.definitions).bind fun _ _ =>
    (file.root.decides_compile file.names .root).map _

/-- Files that are well formed compile, and no others. -/
theorem exists_compile_iff (file : DefinitionFile) :
    (∃ graph, file.compile = .ok graph) ↔ file.WellFormed := by
  have decides := file.decides_compile
  unfold Definition.Decides Definition.firstUnsound at decides
  split at decides
  · next hnone =>
    have sound : file.WellFormed := by simpa [WellFormed] using hnone
    exact ⟨fun _ => sound, fun _ => decides⟩
  · next position hfirst =>
    obtain ⟨error, herror, -⟩ := decides
    have unsound : ¬ position.form.Sound file.names := by simpa using List.find?_some hfirst
    constructor
    · rintro ⟨graph, compiled⟩
      rw [herror] at compiled
      cases compiled
    · intro sound
      exact absurd (sound position (List.mem_of_find?_eq_some hfirst)) unsound

/-- The error of a file is that of its first position that is not sound. -/
theorem compile_eq_error_iff (file : DefinitionFile) (error : CompileError) :
    file.compile = .error error ↔ ∃ position,
      Definition.firstUnsound file.names file.positions = some position ∧
        position.form.Violates file.names error := by
  have decides := file.decides_compile
  unfold Definition.Decides at decides
  split at decides
  · next hnone =>
    obtain ⟨graph, compiled⟩ := decides
    simp [compiled, hnone]
  · next position hfirst =>
    obtain ⟨found, herror, violates⟩ := decides
    rw [herror, hfirst]
    constructor
    · intro h
      cases h
      exact ⟨position, rfl, violates⟩
    · rintro ⟨other, hother, violates'⟩
      cases hother
      rw [violates.unique violates']

end DefinitionFile

end SchemaDoc
