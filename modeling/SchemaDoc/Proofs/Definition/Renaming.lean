import SchemaDoc.Proofs.Definition.WellFormed
import SchemaDoc.Proofs.Projection.Interchange

/-!
# Renamed definitions

A definition in which the names of references are changed has the same positions, and is well
formed where the new names are defined. What it compiles to has nodes and slots of its own. What
stays the same is which definitions have been entered on the way to a node: `Renames` says so of
two ways, every step keeps it, and it decides where cycles are cut.
-/
namespace SchemaDoc

section

variable (f : String → String)

mutual

/-- The definition with the names it refers to changed. -/
def Definition.rename : Definition → Definition
  | .mk form notes => .mk form.rename notes

def Form.rename : Form Definition → Form Definition
  | .struct fields index => .struct (renameFields fields) (renameOption index)
  | .tuple elements rest => .tuple (renameElements elements) (renameOption rest)
  | .array items nonEmpty => .array items.rename nonEmpty
  | .union members => .union (renameMembers members)
  | .refinement base constraints => .refinement base.rename constraints
  | .ref name => .ref (f name)
  | form => form

def renameFields : List (Field Definition) → List (Field Definition)
  | [] => []
  | ⟨name, definition, isOptional⟩ :: rest =>
    ⟨name, definition.rename, isOptional⟩ :: renameFields rest

def renameElements : List (Element Definition) → List (Element Definition)
  | [] => []
  | ⟨definition, isOptional⟩ :: rest => ⟨definition.rename, isOptional⟩ :: renameElements rest

def renameMembers : List Definition → List Definition
  | [] => []
  | definition :: rest => definition.rename :: renameMembers rest

def renameOption : Option Definition → Option Definition
  | none => none
  | some definition => some definition.rename

end

/-- The file with its definitions under other names. -/
def DefinitionFile.rename (file : DefinitionFile) : DefinitionFile where
  definitions := file.definitions.map fun member => (f member.1, member.2.rename f)
  root := file.root.rename f

end

variable {f : String → String}

theorem renameFields_eq_map (fields : List (Field Definition)) :
    renameFields f fields = fields.map fun field =>
      { field with node := field.node.rename f } := by
  induction fields with
  | nil => rfl
  | cons field rest ih => rw [renameFields, ih, List.map_cons]

theorem renameElements_eq_map (elements : List (Element Definition)) :
    renameElements f elements = elements.map fun element =>
      { element with node := element.node.rename f } := by
  induction elements with
  | nil => rfl
  | cons element rest ih => rw [renameElements, ih, List.map_cons]

theorem renameMembers_eq_map (members : List Definition) :
    renameMembers f members = members.map (Definition.rename f) := by
  induction members with
  | nil => rfl
  | cons member rest ih => rw [renameMembers, ih, List.map_cons]

theorem renameOption_eq_map (definition? : Option Definition) :
    renameOption f definition? = definition?.map (Definition.rename f) := by
  cases definition? <;> rfl

@[simp] theorem Definition.form_rename (definition : Definition) :
    (definition.rename f).form = definition.form.rename f := by
  cases definition
  rfl

theorem Form.parts_rename (form : Form Definition) :
    (form.rename f).parts = form.parts.map (Definition.rename f) := by
  cases form with
  | struct fields index =>
    cases index <;> simp [rename, parts, renameFields_eq_map, renameOption_eq_map]
  | tuple elements rest =>
    cases rest <;> simp [rename, parts, renameElements_eq_map, renameOption_eq_map]
  | union members => exact renameMembers_eq_map members
  | _ => rfl

theorem Definition.positions_rename (definition : Definition) :
    (definition.rename f).positions = definition.positions.map (rename f) := by
  induction definition using Definition.induction_on_parts with
  | mk form notes ih =>
    have inner : ∀ part ∈ form.parts, (part.rename f).positions = part.positions.map (rename f) :=
      fun part mem => ih part (Form.part_of_mem_parts mem)
    rw [positions_eq, positions_eq, form_rename, Form.parts_rename, List.flatMap_map,
      List.map_append, List.map_flatMap]
    exact congrArg (· ++ _) (List.flatMap_congr inner)

theorem Form.rename_id {form : Form Definition}
    (parts : ∀ inner, form.Part inner → inner.rename id = inner) : form.rename id = form := by
  have optional : ∀ {definition? : Option Definition},
      (∀ inner, definition? = some inner → inner.rename id = inner) →
        renameOption id definition? = definition? := by
    intro definition? h
    cases definition? with
    | none => rfl
    | some inner => exact congrArg some (h inner rfl)
  cases form with
  | struct fields index =>
    rw [rename, renameFields_eq_map, optional fun inner h => parts inner (.of_index h)]
    have same : ∀ field ∈ fields, { field with node := field.node.rename id } = field :=
      fun field mem => by rw [parts field.node (.field mem)]
    rw [List.map_congr_left same, List.map_id']
  | tuple elements rest =>
    rw [rename, renameElements_eq_map, optional fun inner h => parts inner (.of_rest h)]
    have same : ∀ element ∈ elements, { element with node := element.node.rename id } = element :=
      fun element mem => by rw [parts element.node (.element mem)]
    rw [List.map_congr_left same, List.map_id']
  | array items nonEmpty => rw [rename, parts items .items]
  | union members =>
    rw [rename, renameMembers_eq_map]
    rw [List.map_congr_left fun member mem => parts member (.member mem), List.map_id']
  | refinement base constraints => rw [rename, parts base .base]
  | _ => rfl

@[simp] theorem Definition.rename_id (definition : Definition) :
    definition.rename id = definition := by
  induction definition using Definition.induction_on_parts with
  | mk form notes ih => rw [rename, Form.rename_id ih]

@[simp] theorem Definition.isVoid_rename (definition : Definition) :
    (definition.rename f).isVoid = definition.isVoid := by
  unfold isVoid
  rw [form_rename]
  cases definition.form <;> rfl

@[simp] theorem Definition.literal?_rename (definition : Definition) :
    (definition.rename f).literal? = definition.literal? := by
  unfold literal?
  rw [form_rename]
  cases definition.form <;> rfl

/-- Renamed forms are sound where the new names are defined. -/
theorem Form.Sound.rename {names names' : List String} {form : Form Definition}
    (h : form.Sound names) (defined : ∀ name ∈ names, f name ∈ names') :
    (form.rename f).Sound names' := by
  cases form with
  | struct fields index =>
    have same : (renameFields f fields).map Field.name = fields.map Field.name := by
      simp [renameFields_eq_map]
    simpa only [Form.rename, Sound, same] using h
  | union members =>
    simpa only [Form.rename, Sound, renameMembers_eq_map, ne_eq, List.map_eq_nil_iff] using h
  | ref name => exact defined name h
  | literal value => exact h
  | _ => trivial

theorem Definition.WellFormed.rename {names names' : List String} {definition : Definition}
    (h : definition.WellFormed names) (defined : ∀ name ∈ names, f name ∈ names') :
    (definition.rename f).WellFormed names' := by
  intro position mem
  rw [positions_rename] at mem
  obtain ⟨origin, horigin, rfl⟩ := List.mem_map.mp mem
  rw [form_rename]
  exact (h origin horigin).rename defined

/-! ## Projections in step -/

theorem Trail.contains_definition (trail : Trail) (name : String) :
    trail.contains (.definition name) = decide (.definition name ∈ trail.visited) := by
  have shared : (Identity.definition name != .unshared) = true := bne_iff_ne.mpr nofun
  simp [contains, shared]

/-- Of the definitions of a file, the same ones have been entered on two ways, one of them with the
definitions under other names. -/
def Renames (f : String → String) (names : List String) (visited visited' : List Identity) : Prop :=
  ∀ name ∈ names, (.definition (f name) ∈ visited' ↔ .definition name ∈ visited)

namespace Renames

variable {names : List String} {visited visited' : List Identity}

theorem nil : Renames f names [] [] := fun _ _ => by simp

/-- Other nodes change nothing. -/
theorem cons {identity identity' : Identity} (h : Renames f names visited visited')
    (other : ∀ name, identity ≠ .definition name) (other' : ∀ name, identity' ≠ .definition name) :
    Renames f names (identity :: visited) (identity' :: visited') := by
  intro name mem
  simp only [List.mem_cons, (other name).symm, (other' (f name)).symm, false_or]
  exact h name mem

theorem part (h : Renames f names visited visited') (place place' : Identity) (i i' : Nat) :
    Renames f names (place.part i :: visited) (place'.part i' :: visited') :=
  h.cons (fun _ => nofun) fun _ => nofun

theorem definition {name : String} (h : Renames f names visited visited')
    (injective : ∀ one ∈ names, ∀ other ∈ names, f one = f other → one = other)
    (mem : name ∈ names) :
    Renames f names (.definition name :: visited) (.definition (f name) :: visited') := by
  intro other hother
  have same : f other = f name ↔ other = name :=
    ⟨injective other hother name mem, congrArg f⟩
  simp only [List.mem_cons, Identity.definition.injEq, same, h other hother]

end Renames

namespace Definition

variable {names names' : List String} {place place' : Identity}

/-- What a form and the renamed form compile to are references under the two names, or shapes of
one kind with parts of the same origin. -/
theorem FormCompiles.rename {R : Schema → Schema → Prop} {form : Form Definition}
    {shape shape' : Shape Schema} (h : FormCompiles names place form shape)
    (h' : FormCompiles names' place' (form.rename f) shape')
    (parts : ∀ origin, form.Part origin → ∀ made made', CompilesInside names place origin made →
      CompilesInside names' place' (origin.rename f) made' → R made made') :
    (∃ name ∈ names, shape = .recursive (.slot name) ∧ shape' = .recursive (.slot (f name))) ∨
      (∀ name, shape ≠ .recursive (.slot name)) ∧ shape.Rel R shape' := by
  have optional : ∀ {origin? : Option Definition} {made? made'? : Option Schema},
      (∀ origin, origin? = some origin → form.Part origin) →
      Option.Rel (CompilesInside names place) origin? made? →
      Option.Rel (CompilesInside names' place') (renameOption f origin?) made'? →
        Option.Rel R made? made'? := by
    intro origin? made? made'? part hmade hmade'
    cases hmade with
    | none =>
      cases hmade'
      exact .none
    | some hmade =>
      cases hmade' with
      | some hmade' => exact .some (parts _ (part _ rfl) _ _ hmade hmade')
  cases h with
  | ref mem =>
    cases h'
    exact .inl ⟨_, mem, rfl, rfl⟩
  | literal hliteral =>
    cases h' with
    | literal hliteral' =>
      cases hliteral.symm.trans hliteral'
      exact .inr ⟨nofun, .literal _⟩
  | struct hfields hindex =>
    rw [Form.rename, renameFields_eq_map] at h'
    cases h' with
    | struct hfields' hindex' =>
      refine .inr ⟨nofun, .struct ?_ (optional (fun origin h => .of_index h) hindex hindex')⟩
      apply (forall₂_of_common hfields (List.forall₂_map_left_iff.mp hfields')).imp
      rintro made made' ⟨origin, mem, ⟨hmade, hname, hopt⟩, hmade', hname', hopt'⟩
      exact ⟨parts origin.node (.field mem) _ _ hmade hmade', hname'.trans hname.symm,
        hopt'.trans hopt.symm⟩
  | tuple helements hrest =>
    rw [Form.rename, renameElements_eq_map] at h'
    cases h' with
    | tuple helements' hrest' =>
      refine .inr ⟨nofun, .tuple ?_ (optional (fun origin h => .of_rest h) hrest hrest')⟩
      apply (forall₂_of_common helements (List.forall₂_map_left_iff.mp helements')).imp
      rintro made made' ⟨origin, mem, ⟨hmade, hopt⟩, hmade', hopt'⟩
      exact ⟨parts origin.node (.element mem) _ _ hmade hmade', hopt'.trans hopt.symm⟩
  | @array items item nonEmpty hitem =>
    cases h' with
    | @array _ item' _ hitem' =>
      have same : R item item' := parts items .items _ _ hitem hitem'
      refine .inr ⟨nofun, .tuple ?_ (.some same)⟩
      cases nonEmpty with
      | true => exact .cons ⟨same, rfl⟩ .nil
      | false => exact .nil
  | union hmembers =>
    rw [Form.rename, renameMembers_eq_map] at h'
    cases h' with
    | union hmembers' =>
      refine .inr ⟨nofun, .union ?_⟩
      apply (forall₂_of_common hmembers (List.forall₂_map_left_iff.mp hmembers')).imp
      rintro made made' ⟨origin, mem, hmade, hmade'⟩
      exact parts origin (.member mem) _ _ hmade hmade'
  | refinement hbase =>
    cases h' with
    | refinement hbase' => exact .inr ⟨nofun, .refinement _ (parts _ .base _ _ hbase hbase')⟩
  | hidden =>
    cases h'
    exact .inr ⟨nofun, .hidden⟩
  | _ =>
    cases h'
    exact .inr ⟨nofun, .primitive _⟩

/-- What a definition and the renamed definition compile to project alike if following references
does. -/
theorem matches_of_rename {follow follow' : Trail → Reference Schema → Outcome}
    (following : ∀ location visited visited', Renames f names visited visited' →
      ∀ name ∈ names, follow' ⟨location, visited'⟩ (.slot (f name)) =
        follow ⟨location, visited⟩ (.slot name))
    {definition : Definition} {schema schema' : Schema} {visited visited' : List Identity}
    (made : definition.compile names place = .ok schema)
    (made' : (definition.rename f).compile names' place' = .ok schema')
    (renames : Renames f names (place :: visited) (place' :: visited')) :
    schema.Matches follow follow' visited visited' schema' := by
  induction definition using Definition.induction_on_parts
    generalizing place place' schema schema' visited visited' with
  | mk form notes ih =>
    have isVoid : schema'.isVoid = schema.isVoid := by
      rw [isVoid_of_compile made, isVoid_of_compile made', isVoid_rename]
    have literal? : schema'.literal? = schema.literal? := by
      rw [literal?_of_compile made, literal?_of_compile made', literal?_rename]
    refine ⟨isVoid, literal?, fun inField location => ?_⟩
    obtain ⟨shape, hshape, rfl⟩ := compile_eq_ok made
    obtain ⟨shape', hshape', rfl⟩ := compile_eq_ok made'
    have parts : ∀ origin, form.Part origin → ∀ inner inner',
        CompilesInside names place origin inner →
        CompilesInside names' place' (origin.rename f) inner' →
          inner.Matches follow follow' (place :: visited) (place' :: visited') inner' := by
      rintro origin part inner inner' ⟨i, hinner⟩ ⟨i', hinner'⟩
      exact ih origin part hinner hinner' (renames.part place place' i i')
    have same : Projection.shapeOf follow' inField ⟨location, place' :: visited'⟩ shape' =
        Projection.shapeOf follow inField ⟨location, place :: visited⟩ shape := by
      rcases (formCompiles_of_ok hshape).rename (formCompiles_of_ok hshape') parts with
        ⟨name, mem, rfl, rfl⟩ | ⟨notReference, rel⟩
      · exact following location _ _ renames name mem
      · exact Projection.shapeOf_eq_of_rel rel fun name h => absurd h (notReference name)
    rw [Projection.node_eq, Projection.node_eq]
    exact congrArg (fun result : Outcome => do return notes.overlay (← result)) same

end Definition

end SchemaDoc
