import SchemaDoc.Proofs.InStep
import SchemaDoc.Proofs.Results
import SchemaDoc.Proofs.Schema.Parts

/-!
# What definitions compile to

A definition compiles to a node that stands at the place of the definition, and the parts of the
definition to the parts of the node, each at a place of its own inside.
-/
namespace SchemaDoc

namespace Definition

variable {names : List String} {place : Identity} {definition : Definition} {schema : Schema}

/-- The definition has the form of what stands for nothing. -/
def isVoid (definition : Definition) : Bool :=
  match definition.form with
  | .void => true
  | _ => false

/-- The literal that a definition stands for. -/
def literal? (definition : Definition) : Option Literal :=
  match definition.form with
  | .literal value => (literalOf value).toOption
  | _ => none

theorem compile_eq_ok (h : definition.compile names place = .ok schema) :
    ∃ shape, compileForm names place definition.form = .ok shape ∧
      schema = .node place shape definition.notes := by
  cases definition with
  | mk form notes =>
    obtain ⟨shape, hshape, h⟩ := bind_eq_ok.mp h
    cases h
    exact ⟨shape, hshape, rfl⟩

/-- A node is made at the place of its definition. -/
theorem identity_of_compile (h : definition.compile names place = .ok schema) :
    schema.identity = place := by
  obtain ⟨shape, -, rfl⟩ := compile_eq_ok h
  rfl

/-- The node of a part was made from the definition at a place inside. -/
def CompilesInside (names : List String) (place : Identity) (definition : Definition)
    (schema : Schema) : Prop :=
  ∃ i, definition.compile names (place.part i) = .ok schema

/-- What a form compiles to. -/
inductive FormCompiles (names : List String) (place : Identity) :
    Form Definition → Shape Schema → Prop
  | string : FormCompiles names place .string (.primitive .string)
  | number : FormCompiles names place .number (.primitive .number)
  | boolean : FormCompiles names place .boolean (.primitive .boolean)
  | void : FormCompiles names place .void (.primitive .void)
  | unknown : FormCompiles names place .unknown (.primitive .unknown)
  | hidden : FormCompiles names place .hidden .hidden
  | literal {value : Json} {literal : Literal} : literalOf value = .ok literal →
      FormCompiles names place (.literal value) (.literal literal)
  | struct {fields : List (Field Definition)} {made : List (Field Schema)}
      {index : Option Definition} {index' : Option Schema} :
      List.Forall₂ (fun field field' => CompilesInside names place field.node field'.node ∧
        field'.name = field.name ∧ field'.optional = field.optional) fields made →
      Option.Rel (CompilesInside names place) index index' →
      FormCompiles names place (.struct fields index) (.struct made index')
  | tuple {elements : List (Element Definition)} {made : List (Element Schema)}
      {rest : Option Definition} {rest' : Option Schema} :
      List.Forall₂ (fun element element' => CompilesInside names place element.node element'.node ∧
        element'.optional = element.optional) elements made →
      Option.Rel (CompilesInside names place) rest rest' →
      FormCompiles names place (.tuple elements rest) (.tuple made rest')
  | array {items : Definition} {item : Schema} {nonEmpty : Bool} :
      CompilesInside names place items item →
      FormCompiles names place (.array items nonEmpty)
        (.tuple (if nonEmpty then [⟨item, false⟩] else []) (some item))
  | union {members : List Definition} {made : List Schema} :
      List.Forall₂ (CompilesInside names place) members made →
      FormCompiles names place (.union members) (.union made)
  | refinement {base : Definition} {base' : Schema} {constraints : List Constraint} :
      CompilesInside names place base base' →
      FormCompiles names place (.refinement base constraints) (.refinement base' constraints)
  | ref {name : String} : name ∈ names →
      FormCompiles names place (.ref name) (.recursive (.slot name))

/-! ## Lists of parts -/

theorem compileFields_eq_mapM (i : Nat) (fields : List (Field Definition)) :
    compileFields names place i fields = (fields.zipIdx i).mapM fun (field, j) => do
      return ⟨field.name, ← field.node.compile names (place.part j), field.optional⟩ := by
  induction fields generalizing i with
  | nil => rfl
  | cons field rest ih =>
    rw [List.zipIdx_cons, List.mapM_cons, ← ih, compileFields, bind_assoc]
    simp only [pure_bind]

theorem compileElements_eq_mapM (i : Nat) (elements : List (Element Definition)) :
    compileElements names place i elements = (elements.zipIdx i).mapM fun (element, j) => do
      return ⟨← element.node.compile names (place.part j), element.optional⟩ := by
  induction elements generalizing i with
  | nil => rfl
  | cons element rest ih =>
    rw [List.zipIdx_cons, List.mapM_cons, ← ih, compileElements, bind_assoc]
    simp only [pure_bind]

theorem compileMembers_eq_mapM (i : Nat) (members : List Definition) :
    compileMembers names place i members =
      (members.zipIdx i).mapM fun (member, j) => member.compile names (place.part j) := by
  induction members generalizing i with
  | nil => rfl
  | cons member rest ih => rw [List.zipIdx_cons, List.mapM_cons, ← ih, compileMembers]

theorem compileFields_eq_ok {i : Nat} {fields : List (Field Definition)}
    {made : List (Field Schema)} (h : compileFields names place i fields = .ok made) :
    List.Forall₂ (fun field field' => CompilesInside names place field.node field'.node ∧
      field'.name = field.name ∧ field'.optional = field.optional) fields made := by
  rw [compileFields_eq_mapM] at h
  apply forall₂_of_zipIdx
  apply (forall₂_of_mapM_eq_ok h).imp
  intro (field, j) field' hmade
  obtain ⟨schema, hschema, hmade⟩ := bind_eq_ok.mp hmade
  cases hmade
  exact ⟨⟨j, hschema⟩, rfl, rfl⟩

theorem compileElements_eq_ok {i : Nat} {elements : List (Element Definition)}
    {made : List (Element Schema)} (h : compileElements names place i elements = .ok made) :
    List.Forall₂ (fun element element' => CompilesInside names place element.node element'.node ∧
      element'.optional = element.optional) elements made := by
  rw [compileElements_eq_mapM] at h
  apply forall₂_of_zipIdx
  apply (forall₂_of_mapM_eq_ok h).imp
  intro (element, j) element' hmade
  obtain ⟨schema, hschema, hmade⟩ := bind_eq_ok.mp hmade
  cases hmade
  exact ⟨⟨j, hschema⟩, rfl⟩

theorem compileMembers_eq_ok {i : Nat} {members : List Definition} {made : List Schema}
    (h : compileMembers names place i members = .ok made) :
    List.Forall₂ (CompilesInside names place) members made := by
  rw [compileMembers_eq_mapM] at h
  apply forall₂_of_zipIdx
  apply (forall₂_of_mapM_eq_ok h).imp
  intro (member, j) member' hmade
  exact ⟨j, hmade⟩

theorem compileOption_eq_ok {i : Nat} {definition? : Option Definition} {schema? : Option Schema}
    (h : compileOption names (place.part i) definition? = .ok schema?) :
    Option.Rel (CompilesInside names place) definition? schema? := by
  cases definition? with
  | none =>
    cases h
    exact .none
  | some definition =>
    obtain ⟨schema, hschema, h⟩ := bind_eq_ok.mp h
    cases h
    exact .some ⟨i, hschema⟩

/-! ## Forms -/

theorem formCompiles_of_ok {form : Form Definition} {shape : Shape Schema}
    (h : compileForm names place form = .ok shape) : FormCompiles names place form shape := by
  cases form with
  | string => cases h; exact .string
  | number => cases h; exact .number
  | boolean => cases h; exact .boolean
  | void => cases h; exact .void
  | unknown => cases h; exact .unknown
  | hidden => cases h; exact .hidden
  | literal value =>
    obtain ⟨literal, hliteral, rfl⟩ := map_eq_ok.mp h
    exact .literal hliteral
  | struct fields index =>
    obtain ⟨made, hfields, h⟩ := bind_eq_ok.mp h
    obtain ⟨index', hindex, h⟩ := bind_eq_ok.mp h
    split at h
    · cases h
    · cases h
      exact .struct (compileFields_eq_ok hfields) (compileOption_eq_ok hindex)
  | tuple elements rest =>
    obtain ⟨made, helements, h⟩ := bind_eq_ok.mp h
    obtain ⟨rest', hrest, h⟩ := bind_eq_ok.mp h
    cases h
    exact .tuple (compileElements_eq_ok helements) (compileOption_eq_ok hrest)
  | array items nonEmpty =>
    obtain ⟨item, hitem, h⟩ := bind_eq_ok.mp h
    cases h
    exact .array ⟨0, hitem⟩
  | union members =>
    obtain ⟨made, hmembers, h⟩ := bind_eq_ok.mp h
    split at h
    · cases h
    · cases h
      exact .union (compileMembers_eq_ok hmembers)
  | refinement base constraints =>
    obtain ⟨base', hbase, h⟩ := bind_eq_ok.mp h
    cases h
    exact .refinement ⟨0, hbase⟩
  | ref name =>
    unfold compileForm at h
    split at h
    · next hname =>
      cases h
      exact .ref hname
    · cases h

/-! ## What a node says of its definition -/

theorem isVoid_of_compile (h : definition.compile names place = .ok schema) :
    schema.isVoid = definition.isVoid := by
  obtain ⟨shape, hshape, rfl⟩ := compile_eq_ok h
  unfold Schema.isVoid isVoid
  generalize definition.form = form at hshape ⊢
  cases formCompiles_of_ok hshape <;> rfl

theorem literal?_of_compile (h : definition.compile names place = .ok schema) :
    schema.literal? = definition.literal? := by
  obtain ⟨shape, hshape, rfl⟩ := compile_eq_ok h
  unfold Schema.literal? literal?
  generalize definition.form = form at hshape ⊢
  cases formCompiles_of_ok hshape with
  | literal hliteral =>
    simp only [hliteral]
    rfl
  | _ => rfl

end Definition

namespace DefinitionFile

theorem exists_lookup_of_mem {definitions : List (String × Definition)} {name : String}
    (h : name ∈ definitions.map Prod.fst) :
    ∃ definition, definitions.lookup name = some definition ∧ (name, definition) ∈ definitions := by
  induction definitions with
  | nil => cases h
  | cons first rest ih =>
    obtain ⟨other, definition⟩ := first
    rw [List.lookup_cons]
    cases hname : name == other with
    | true =>
      obtain rfl := eq_of_beq hname
      exact ⟨definition, rfl, List.mem_cons_self⟩
    | false =>
      rcases List.mem_cons.mp h with heq | h
      · exact absurd (beq_iff_eq.mpr heq) (Bool.eq_false_iff.mp hname)
      · obtain ⟨found, hfound, hmem⟩ := ih h
        exact ⟨found, hfound, List.mem_cons_of_mem _ hmem⟩

theorem lookup_compileAll {names : List String} {definitions : List (String × Definition)}
    {bindings : Bindings} (h : compileAll names definitions = .ok bindings) {name : String}
    {definition : Definition} (hlookup : definitions.lookup name = some definition) :
    ∃ schema, bindings.lookup name = some schema ∧
      definition.compile names (.definition name) = .ok schema := by
  induction definitions generalizing bindings with
  | nil => cases hlookup
  | cons first rest ih =>
    obtain ⟨other, made⟩ := first
    obtain ⟨schema, hschema, h⟩ := bind_eq_ok.mp h
    obtain ⟨others, hothers, h⟩ := bind_eq_ok.mp h
    cases h
    rw [List.lookup_cons] at hlookup ⊢
    cases hname : name == other with
    | true =>
      rw [hname] at hlookup
      cases hlookup
      obtain rfl := eq_of_beq hname
      exact ⟨schema, rfl, hschema⟩
    | false =>
      rw [hname] at hlookup
      exact ih hothers hlookup

/-- The graph of a file has the nodes of its definitions and that of its root. -/
theorem compile_eq_ok_iff {file : DefinitionFile} {graph : Graph} :
    file.compile = .ok graph ↔ compileAll file.names file.definitions = .ok graph.bindings ∧
      file.root.compile file.names .root = .ok graph.root := by
  constructor
  · intro compiled
    obtain ⟨bindings, hbindings, compiled⟩ := bind_eq_ok.mp compiled
    obtain ⟨root, hroot, compiled⟩ := bind_eq_ok.mp compiled
    cases compiled
    exact ⟨hbindings, hroot⟩
  · rintro ⟨hbindings, hroot⟩
    rw [compile, hbindings, hroot]
    rfl

end DefinitionFile

end SchemaDoc
