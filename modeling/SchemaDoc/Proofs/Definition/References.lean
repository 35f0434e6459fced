import SchemaDoc.Proofs.Definition.WellFormed

/-!
# References of compiled files

Every node of a compiled file was made from a position of it. So a reference, wherever it stands in
the graph, was made from a reference by name, and finds the node of the definition of that name.
Together with the files that compile and the errors of all others this says what compiling does.
-/
namespace SchemaDoc

/-- A schema inside another one, or that one itself. What references lead to is not inside. -/
abbrev Schema.Within : Schema → Schema → Prop :=
  Relation.ReflTransGen fun schema inner => schema.shape.Part inner

/-- A schema inside the root or inside a bound node. -/
def Graph.Holds (graph : Graph) (schema : Schema) : Prop :=
  graph.root.Within schema ∨ ∃ bound ∈ graph.bindings, bound.2.Within schema

namespace Definition

variable {names : List String} {place : Identity} {definition : Definition} {schema inner : Schema}

theorem mem_positions_self (definition : Definition) : definition ∈ definition.positions := by
  rw [positions_eq]
  exact List.mem_append_right _ (List.mem_singleton_self _)

theorem mem_positions_of_part {part position : Definition} (hpart : part ∈ definition.form.parts)
    (h : position ∈ part.positions) : position ∈ definition.positions := by
  rw [positions_eq]
  exact List.mem_append_left _ (List.mem_flatMap.mpr ⟨part, hpart, h⟩)

/-- The parts of a node are made from the parts of its definition. -/
theorem exists_part_of_compile (made : definition.compile names place = .ok schema)
    (part : schema.shape.Part inner) :
    ∃ origin ∈ definition.form.parts, CompilesInside names place origin inner := by
  obtain ⟨shape, hshape, rfl⟩ := compile_eq_ok made
  have compiles := formCompiles_of_ok hshape
  change shape.Part inner at part
  generalize definition.form = form at compiles ⊢
  cases compiles with
  | struct hfields hindex =>
    cases part with
    | field mem =>
      obtain ⟨field, hfield, inside, -⟩ := exists_of_mem_right hfields mem
      exact ⟨field.node, List.mem_append_left _ (List.mem_map_of_mem hfield), inside⟩
    | index =>
      cases hindex with
      | some inside => exact ⟨_, List.mem_append_right _ (List.mem_singleton_self _), inside⟩
  | tuple helements hrest =>
    cases part with
    | element mem =>
      obtain ⟨element, helement, inside, -⟩ := exists_of_mem_right helements mem
      exact ⟨element.node, List.mem_append_left _ (List.mem_map_of_mem helement), inside⟩
    | rest =>
      cases hrest with
      | some inside => exact ⟨_, List.mem_append_right _ (List.mem_singleton_self _), inside⟩
  | @array items item nonEmpty inside =>
    -- The item stands in a list that is not empty twice, and both times it is the same node.
    have only : inner = item := by
      cases part with
      | element mem => cases nonEmpty <;> simp_all
      | rest => rfl
    exact ⟨items, List.mem_singleton_self _, only ▸ inside⟩
  | union hmembers =>
    cases part with
    | member mem =>
      obtain ⟨member, hmember, inside⟩ := exists_of_mem_right hmembers mem
      exact ⟨member, hmember, inside⟩
  | refinement inside =>
    cases part with
    | base => exact ⟨_, List.mem_singleton_self _, inside⟩
  | _ => cases part

/-- Every node inside a compiled definition is made from one of its positions. -/
theorem exists_position_of_within (within : schema.Within inner)
    (made : definition.compile names place = .ok schema) :
    ∃ position ∈ definition.positions, ∃ place', position.compile names place' = .ok inner := by
  induction within using Relation.ReflTransGen.head_induction_on generalizing definition place with
  | refl => exact ⟨definition, definition.mem_positions_self, place, made⟩
  | head part _ ih =>
    obtain ⟨origin, horigin, i, hmade⟩ := exists_part_of_compile made part
    obtain ⟨position, hposition, place', hinner⟩ := ih hmade
    exact ⟨position, mem_positions_of_part horigin hposition, place', hinner⟩

/-- A reference is made from a name that is defined. -/
theorem ref_of_compile {reference : Reference Schema}
    (made : definition.compile names place = .ok schema)
    (hshape : schema.shape = .recursive reference) :
    ∃ name ∈ names, definition.form = .ref name ∧ reference = .slot name := by
  obtain ⟨shape, compiles, rfl⟩ := compile_eq_ok made
  obtain rfl : shape = .recursive reference := hshape
  generalize definition.form = form at compiles ⊢
  cases formCompiles_of_ok compiles with
  | ref mem => exact ⟨_, mem, rfl, rfl⟩

end Definition

namespace DefinitionFile

theorem exists_definition_of_bound {names : List String} {definitions : List (String × Definition)}
    {bindings : Bindings} (compiled : compileAll names definitions = .ok bindings)
    {bound : String × Schema} (mem : bound ∈ bindings) :
    ∃ definition, (bound.1, definition) ∈ definitions ∧
      definition.compile names (.definition bound.1) = .ok bound.2 := by
  induction definitions generalizing bindings with
  | nil =>
    cases compiled
    cases mem
  | cons member rest ih =>
    obtain ⟨schema, hschema, compiled⟩ := bind_eq_ok.mp compiled
    obtain ⟨others, hothers, compiled⟩ := bind_eq_ok.mp compiled
    cases compiled
    rcases List.mem_cons.mp mem with rfl | mem
    · exact ⟨member.2, List.mem_cons_self, hschema⟩
    · obtain ⟨definition, hdefinition, made⟩ := ih hothers mem
      exact ⟨definition, List.mem_cons_of_mem member hdefinition, made⟩

/-- Every node of the graph of a file is made from a position of the file. -/
theorem exists_position_of_holds {file : DefinitionFile} {graph : Graph}
    (compiled : file.compile = .ok graph) {schema : Schema} (holds : graph.Holds schema) :
    ∃ position ∈ file.positions, ∃ place, position.compile file.names place = .ok schema := by
  obtain ⟨hbindings, hroot⟩ := compile_eq_ok_iff.mp compiled
  rcases holds with within | ⟨bound, hbound, within⟩
  · obtain ⟨position, hposition, made⟩ := Definition.exists_position_of_within within hroot
    exact ⟨position, List.mem_append_right _ hposition, made⟩
  · obtain ⟨definition, hdefinition, hmade⟩ := exists_definition_of_bound hbindings hbound
    obtain ⟨position, hposition, made⟩ := Definition.exists_position_of_within within hmade
    have listed : position ∈ file.definitions.flatMap fun member => member.2.positions :=
      List.mem_flatMap.mpr ⟨(bound.1, definition), hdefinition, hposition⟩
    exact ⟨position, List.mem_append_left _ listed, made⟩

/-- A slot of a compiled file is bound to the node of the definition of its name. -/
theorem resolve_slot {file : DefinitionFile} {graph : Graph} (compiled : file.compile = .ok graph)
    {name : String} (hname : name ∈ file.names) :
    ∃ definition target, file.definitions.lookup name = some definition ∧
      (Reference.slot name).resolve graph.bindings = .ok target ∧
      definition.compile file.names (.definition name) = .ok target := by
  obtain ⟨hbindings, -⟩ := compile_eq_ok_iff.mp compiled
  obtain ⟨definition, hlookup, -⟩ := exists_lookup_of_mem hname
  obtain ⟨target, hbound, hmade⟩ := lookup_compileAll hbindings hlookup
  exact ⟨definition, target, hlookup, by simp only [Reference.resolve, hbound], hmade⟩

/-- A file compiles exactly if all its positions are sound, and otherwise the error is that of the
first one that is not. In the graph of a file every reference stands for a reference by name, and
all those to one name find one node: the one its definition compiles to, with its annotations. -/
theorem compile_iff_wellFormed (file : DefinitionFile) :
    ((∃ graph, file.compile = .ok graph) ↔ file.WellFormed) ∧
    (∀ error, file.compile = .error error ↔ ∃ position,
      Definition.firstUnsound file.names file.positions = some position ∧
        position.form.Violates file.names error) ∧
    ∀ graph, file.compile = .ok graph → ∀ schema, graph.Holds schema →
      ∀ reference, schema.shape = .recursive reference →
        ∃ position ∈ file.positions, ∃ name definition target, position.form = .ref name ∧
          reference = .slot name ∧ file.definitions.lookup name = some definition ∧
          reference.resolve graph.bindings = .ok target ∧
          definition.compile file.names (.definition name) = .ok target ∧
          target.identity = .definition name ∧ target.notes = definition.notes := by
  refine ⟨file.exists_compile_iff, file.compile_eq_error_iff, ?_⟩
  intro graph compiled schema holds reference hshape
  obtain ⟨position, hposition, place, made⟩ := exists_position_of_holds compiled holds
  obtain ⟨name, hname, hform, rfl⟩ := Definition.ref_of_compile made hshape
  obtain ⟨definition, target, hlookup, hresolve, hmade⟩ := resolve_slot compiled hname
  have identity := Definition.identity_of_compile hmade
  obtain ⟨shape, -, rfl⟩ := Definition.compile_eq_ok hmade
  exact ⟨position, hposition, name, definition, _, hform, rfl, hlookup, hresolve, hmade, identity,
    rfl⟩

/-! ## A file with mutual references -/

/-- Folders with their files, and files with the folder they stand in. -/
def folders : DefinitionFile where
  definitions :=
    [("Folder", .mk (.struct [⟨"files", .mk (.array (.mk (.ref "File") .none) true) .none, false⟩]
        none) ⟨some "Where files stand", none, []⟩),
      ("File", .mk (.struct [⟨"folder", .mk (.ref "Folder") .none, true⟩] none)
        ⟨none, some "One file", []⟩)]
  root := .mk (.ref "File") .none

/-- The folder of a file refers back to the definition before it. -/
theorem folders_references_bound :
    ∃ graph schema reference, folders.compile = .ok graph ∧ graph.Holds schema ∧
      schema.shape = .recursive reference ∧ ∃ target,
        reference.resolve graph.bindings = .ok target ∧ target.identity = .definition "File" ∧
          target.notes = ⟨none, some "One file", []⟩ := by
  have compiled : ∃ graph, folders.compile = .ok graph ∧
      graph.root.shape = .recursive (.slot "File") := ⟨_, rfl, rfl⟩
  obtain ⟨graph, compiled, hshape⟩ := compiled
  have holds : graph.Holds graph.root := .inl .refl
  obtain ⟨-, -, name, definition, target, -, hname, hlookup, hresolve, -, hidentity, hnotes⟩ :=
    (compile_iff_wellFormed folders).2.2 graph compiled graph.root holds _ hshape
  cases hname
  cases hlookup
  exact ⟨graph, graph.root, _, compiled, holds, hshape, target, hresolve, hidentity, hnotes⟩

end DefinitionFile

end SchemaDoc
