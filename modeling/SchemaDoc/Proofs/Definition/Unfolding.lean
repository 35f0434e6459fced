import SchemaDoc.Proofs.Definition.Compiling
import SchemaDoc.Proofs.Definition.Literals
import SchemaDoc.Proofs.Projection.Congruence
import SchemaDoc.Proofs.Projection.Traversal

/-!
# Unfolding definitions by name

The documents of the definitions of a file, told by names alone: no nodes are made and nothing is
counted, and a name that was expanded on the way to a reference is not expanded again. So unfolding
ends, since each expansion leaves fewer definitions that are not expanded yet. The projection of
the compiled file guards the nodes on its trail instead, and caps the references it follows.
`Trail.Expands` ties the two guards together, and a cap above the number of definitions that are
left is never reached.
-/
namespace SchemaDoc

namespace Definition

/-! ## Unfolding -/

section

variable {definitions : List (String × Definition)} {expanded : List String} {name : String}
  {definition : Definition}

/-- How many definitions were not expanded. -/
def pending (definitions : List (String × Definition)) (expanded : List String) : Nat :=
  definitions.countP fun member => member.1 ∉ expanded

theorem pending_cons_le :
    pending definitions (name :: expanded) ≤ pending definitions expanded := by
  refine List.countP_mono_left fun member _ h => ?_
  have hmember : member.1 ∉ name :: expanded := of_decide_eq_true h
  exact decide_eq_true fun mem => hmember (List.mem_cons_of_mem name mem)

theorem pending_cons_lt (fresh : name ∉ expanded)
    (found : definitions.lookup name = some definition) :
    pending definitions (name :: expanded) < pending definitions expanded := by
  obtain ⟨before, after, rfl, -⟩ := List.lookup_eq_some_iff.mp found
  have hbefore : pending before (name :: expanded) ≤ pending before expanded := pending_cons_le
  have hafter : pending after (name :: expanded) ≤ pending after expanded := pending_cons_le
  unfold pending at hbefore hafter ⊢
  rw [List.countP_append, List.countP_append, List.countP_cons_of_neg (by simp),
    List.countP_cons_of_pos (by simpa using fresh)]
  omega

end

mutual

/-- The document of a definition, where some names were expanded on the way to it. -/
def unfold (definitions : List (String × Definition)) (expanded : List String) (inField : Bool)
    (definition : Definition) : Option Members :=
  match definition with
  | .mk form notes => do
    let document ← unfoldForm definitions expanded inField form
    return notes.overlay document
termination_by (pending definitions expanded, sizeOf definition)
decreasing_by
  exact .right _ (by rw [Definition.mk.sizeOf_spec]; omega)

def unfoldForm (definitions : List (String × Definition)) (expanded : List String)
    (inField : Bool) (form : Form Definition) : Option Members :=
  match form with
  | .string => some [("type", .string "string")]
  | .number => some [("type", .string "number")]
  | .boolean => some [("type", .string "boolean")]
  | .void => some []
  | .unknown => some []
  | .hidden => some []
  | .literal value => do
    let literal ← (literalOf value).toOption
    let value ← literal.toJson?
    return Alternatives.enumeration literal.scalarType [value]
  | .struct fields index => do
    let properties ← fields.mapM fun field => do
      let document ← unfold definitions expanded true field.node
      return (field.name, Json.object document)
    let others ← index.attach.mapM fun inner => unfold definitions expanded false inner.1
    return Projection.ofStruct fields properties others
  | .tuple elements rest => do
    let others ← rest.attach.mapM fun inner => unfold definitions expanded false inner.1
    let documents ← elements.mapM fun element => unfold definitions expanded false element.node
    return Sequence.document elements documents others
  | .array items nonEmpty => do
    let document ← unfold definitions expanded false items
    let bound := if nonEmpty then [("minItems", Json.ofNat 1)] else []
    return [("type", .string "array"), ("items", .object document)] ++ bound
  | .union members => do
    let present := Alternatives.present isVoid inField members
    match ← (Alternatives.literalEnum [] (present.map literal?)).toOption with
    | some document => return document
    | none =>
      return Alternatives.join
        (← present.attach.mapM fun member => unfold definitions expanded false member.1)
  | .refinement base constraints => do
    return Constraint.applyAll (← unfold definitions expanded false base) constraints
  | .ref name =>
    if name ∈ expanded then some Projection.stub
    else do
      let definition ← (definitions.lookup name).attach
      unfold definitions (name :: expanded) false definition.1
termination_by (pending definitions expanded, sizeOf form)
decreasing_by
  · next mem => exact .right _ (Form.Part.field mem).sizeOf_lt
  · exact .right _ (inner.2 ▸ Form.Part.index).sizeOf_lt
  · exact .right _ (inner.2 ▸ Form.Part.rest).sizeOf_lt
  · next mem => exact .right _ (Form.Part.element mem).sizeOf_lt
  · exact .right _ Form.Part.items.sizeOf_lt
  · exact .right _ (Form.Part.member (Alternatives.mem_of_mem_present member.2)).sizeOf_lt
  · exact .right _ Form.Part.base.sizeOf_lt
  · next fresh => exact .left _ _ (pending_cons_lt fresh definition.2)

end

theorem unfold_eq (definitions : List (String × Definition)) (expanded : List String)
    (inField : Bool) (definition : Definition) :
    definition.unfold definitions expanded inField = do
      let document ← unfoldForm definitions expanded inField definition.form
      return definition.notes.overlay document := by
  cases definition
  rw [Definition.unfold]
  rfl

theorem unfoldForm_ref (definitions : List (String × Definition)) (expanded : List String)
    (inField : Bool) (name : String) :
    unfoldForm definitions expanded inField (.ref name) =
      if name ∈ expanded then some Projection.stub
      else (definitions.lookup name).bind (unfold definitions (name :: expanded) false) := by
  rw [unfoldForm]
  split
  · rfl
  · cases definitions.lookup name <;> rfl

/-! ## Literals -/

variable {names : List String} {place : Identity} {definition : Definition} {schema : Schema}

theorem exists_toJson?_of_literalOf {value : Json} {literal : Literal}
    (finite : ∀ n, value = .number n → n.IsFinite) (h : literalOf value = .ok literal) :
    ∃ written, literal.toJson? = some written := by
  cases value with
  | number n =>
    cases h
    obtain ⟨x, hx⟩ := finite n rfl
    exact ⟨.number (.ofDouble x), by rw [Literal.toJson?, hx]; rfl⟩
  | null => cases h; exact ⟨_, rfl⟩
  | bool => cases h; exact ⟨_, rfl⟩
  | string => cases h; exact ⟨_, rfl⟩
  | array => cases h
  | object => cases h

theorem exists_toJson?_of_literal? (finite : definition.Numbers Number.IsFinite)
    {literal : Literal} (h : definition.literal? = some literal) :
    ∃ written, literal.toJson? = some written := by
  cases finite with
  | @mk form notes number _ =>
    cases form with
    | literal value =>
      unfold literal? at h
      have hliteral : literalOf value = .ok literal := by
        cases hvalue : literalOf value with
        | error => simp [form, hvalue, Except.toOption] at h
        | ok other => simpa [form, hvalue, Except.toOption] using h
      exact exists_toJson?_of_literalOf (fun n hn => number n (congrArg Form.literal hn)) hliteral
    | _ => cases h

end Definition

/-- The definitions on a trail are those of the expanded names. -/
def Trail.Expands (trail : Trail) (expanded : List String) : Prop :=
  ∀ name, .definition name ∈ trail.visited ↔ name ∈ expanded

namespace Trail.Expands

variable {trail : Trail} {expanded : List String}

theorem start : (Trail.start.visit .root).Expands [] := by
  intro name
  simp [Trail.start]

/-- No definition stands inside another one. -/
theorem visit_part (h : trail.Expands expanded) {other : Trail}
    (same : other.visited = trail.visited) (place : Identity) (i : Nat) :
    (other.visit (place.part i)).Expands expanded := by
  intro name
  simp [same, h name]

theorem visit_definition (h : trail.Expands expanded) (name : String) :
    (trail.visit (.definition name)).Expands (name :: expanded) := by
  intro other
  simp [h other]

end Trail.Expands

namespace Projection

variable {definitions : List (String × Definition)} {names expanded : List String}
  {follow : Trail → Reference Schema → Outcome} {place : Identity} {inField : Bool} {trail : Trail}

theorem yields_optional {definition? : Option Definition} {schema? : Option Schema}
    (h : Option.Rel (Definition.CompilesInside names place) definition? schema?)
    (parts : ∀ inner, definition? = some inner → ∀ schema,
      Definition.CompilesInside names place inner schema →
      Yields (node follow false trail schema) (inner.unfold definitions expanded false)) :
    Yields (optional follow trail schema?)
      (definition?.mapM (Definition.unfold definitions expanded false)) := by
  cases h with
  | none => exact yields_ok none
  | @some inner schema made =>
    rw [optional, Option.mapM_some, map_eq_pure_bind]
    exact (parts inner rfl schema made).bind fun document => yields_ok (some document)

/-- A node of a list with one part, and its rest. -/
theorem yields_array {items : Definition} {item : Schema} {nonEmpty : Bool}
    (parts : ∀ trail', trail'.visited = trail.visited →
      Yields (node follow false trail' item) (items.unfold definitions expanded false)) :
    Yields (shapeOf follow inField trail
        (.tuple (if nonEmpty then [⟨item, false⟩] else []) (some item)))
      (Definition.unfoldForm definitions expanded inField (.array items nonEmpty)) := by
  -- A list that is not empty projects its items twice, and both times to the same document.
  obtain ⟨document, hrest, hunfold⟩ := parts (trail.enter
    (if (if nonEmpty then [(⟨item, false⟩ : Element Schema)] else []).isEmpty then .items
      else .additionalItems)) rfl
  obtain ⟨other, helement, hsame⟩ := parts (trail.enter (.item 0)) rfl
  obtain rfl : document = other := Option.some.inj (hunfold.symm.trans hsame)
  cases nonEmpty with
  | false =>
    refine ⟨[("type", .string "array"), ("items", .object document)], ?_, ?_⟩
    · rw [shapeOf, optional, hrest]
      rfl
    · rw [Definition.unfoldForm, hunfold]
      rfl
  | true =>
    refine ⟨[("type", .string "array"), ("items", .object document),
      ("minItems", .ofNat 1)], ?_, ?_⟩
    · rw [shapeOf, optional, hrest]
      simp [elementsOf, helement, Sequence.document, Sequence.isNonEmptyList, Sequence.itemsOf,
        pure, Except.pure, bind, Except.bind]
    · rw [Definition.unfoldForm, hunfold]
      rfl

/-- A shape projects to what its form unfolds to, if the parts do and, where the shape is a
reference, following it does. -/
theorem yields_shapeOf {form : Form Definition} {shape : Shape Schema}
    (made : Definition.FormCompiles names place form shape)
    (finite : form.Numbers Number.IsFinite)
    (parts : ∀ inner, form.Part inner → ∀ inField' trail' schema,
      trail'.visited = trail.visited → Definition.CompilesInside names place inner schema →
      Yields (node follow inField' trail' schema) (inner.unfold definitions expanded inField'))
    (references : ∀ name, form = .ref name → name ∈ names →
      Yields (follow trail (.slot name))
        (Definition.unfoldForm definitions expanded inField (.ref name))) :
    Yields (shapeOf follow inField trail shape)
      (Definition.unfoldForm definitions expanded inField form) := by
  cases made with
  | string => rw [shapeOf, Definition.unfoldForm]; exact yields_ok _
  | number => rw [shapeOf, Definition.unfoldForm]; exact yields_ok _
  | boolean => rw [shapeOf, Definition.unfoldForm]; exact yields_ok _
  | void => rw [shapeOf, Definition.unfoldForm]; exact yields_ok _
  | unknown => rw [shapeOf, Definition.unfoldForm]; exact yields_ok _
  | hidden => rw [shapeOf, Definition.unfoldForm]; exact yields_ok _
  | @literal value literal hliteral =>
    have hfinite : ∀ n, value = .number n → n.IsFinite :=
      fun n hn => finite.literal n (congrArg Form.literal hn)
    obtain ⟨written, hwritten⟩ := Definition.exists_toJson?_of_literalOf hfinite hliteral
    refine ⟨Alternatives.enumeration literal.scalarType [written], ?_, ?_⟩
    · rw [shapeOf, ofLiteral, hwritten]
    · rw [Definition.unfoldForm, hliteral]
      simp [Except.toOption, hwritten]
  | @struct fields made index index' hfields hindex =>
    rw [shapeOf, Definition.unfoldForm, fieldsOf_eq_mapM, optionMapM_attach]
    refine Yields.bind (yields_mapM ?_) fun properties => ?_
    · refine (forall₂_mem hfields).imp ?_
      rintro field field' ⟨mem, made, hname, -⟩
      rw [hname]
      exact (parts field.node (.field mem) true _ _ (Trail.enter_visited _ _) made).bind
        fun document => yields_ok (field.name, Json.object document)
    · refine Yields.bind (yields_optional hindex ?_) fun others => ?_
      · rintro inner rfl schema made
        exact parts inner .index false _ schema (Trail.enter_visited _ _) made
      · rw [ofStruct_congr (hfields.imp fun _ _ h => h.2)]
        exact yields_ok _
  | @tuple elements made rest rest' helements hrest =>
    rw [shapeOf, Definition.unfoldForm, elementsOf_eq_mapM, optionMapM_attach]
    refine Yields.bind (yields_optional hrest ?_) fun others => ?_
    · rintro inner rfl schema made
      exact parts inner .rest false _ schema (Trail.enter_visited _ _) made
    · refine Yields.bind (yields_mapM ?_) fun documents => ?_
      · refine (forall₂_zipIdx (forall₂_mem helements) 0).imp ?_
        rintro element pair ⟨mem, made, -⟩
        exact parts element.node (.element mem) false _ _ (Trail.enter_visited _ _) made
      · rw [Sequence.document_congr (helements.imp fun _ _ h => h.2)]
        exact yields_ok _
  | @array items item nonEmpty made =>
    exact yields_array fun trail' same => parts items .items false trail' item same made
  | @union members made hmembers =>
    -- The members that count and the literals among them are told by the definitions alone.
    have hpresent : List.Forall₂ (fun member schema => member ∈ members ∧
          Definition.CompilesInside names place member schema)
        (Alternatives.present Definition.isVoid inField members)
        (Alternatives.present Schema.isVoid inField made) := by
      refine Alternatives.present_rel ?_ (forall₂_mem hmembers) inField
      rintro member schema ⟨-, i, made⟩
      exact Definition.isVoid_of_compile made
    have hliterals : (Alternatives.present Schema.isVoid inField made).map Schema.literal? =
        (Alternatives.present Definition.isVoid inField members).map Definition.literal? := by
      refine map_eq_of_forall₂ ?_ hpresent
      rintro member schema ⟨-, i, made⟩
      exact Definition.literal?_of_compile made
    obtain ⟨found, hfound⟩ : ∃ found, ∀ location, Alternatives.literalEnum location
        ((Alternatives.present Definition.isVoid inField members).map Definition.literal?) =
          .ok found := by
      refine Alternatives.literalEnum_ok fun literal mem => ?_
      obtain ⟨member, hmember, hliteral⟩ := List.mem_map.mp mem
      have hmem : member ∈ members := Alternatives.mem_of_mem_present hmember
      exact Definition.exists_toJson?_of_literal? (finite.parts member (.member hmem)) hliteral
    rw [shapeOf, membersOf_eq_mapM, filter_counts, Definition.unfoldForm, hliterals]
    simp only [ofUnion, hfound, mapM_attach]
    refine Yields.bind (yields_ok found) fun found => ?_
    cases found with
    | some document => exact yields_ok document
    | none =>
      refine Yields.bind (yields_mapM ?_) fun documents => yields_ok _
      refine (forall₂_zipIdx hpresent 0).imp ?_
      rintro member pair ⟨mem, made⟩
      exact parts member (.member mem) false _ _ (Trail.alternative_visited _ _ _) made
  | @refinement base base' constraints made =>
    rw [shapeOf, Definition.unfoldForm]
    exact (parts base .base false trail base' rfl made).bind fun document => yields_ok _
  | @ref name hname =>
    rw [shapeOf]
    exact references name rfl hname

/-- Where references are followed as names are expanded, a node projects to what its definition
unfolds to. -/
theorem yields_node_of_follow
    (following : ∀ trail inField name, trail.Expands expanded → name ∈ names →
      Yields (follow trail (.slot name))
        (Definition.unfoldForm definitions expanded inField (.ref name)))
    {definition : Definition} {schema : Schema} (finite : definition.Numbers Number.IsFinite)
    (expands : (trail.visit place).Expands expanded)
    (made : definition.compile names place = .ok schema) :
    Yields (node follow inField trail schema) (definition.unfold definitions expanded inField) := by
  induction definition using Definition.induction_on_parts
    generalizing place inField trail schema with
  | mk form notes ih =>
    obtain ⟨shape, hshape, rfl⟩ := Definition.compile_eq_ok made
    cases finite with
    | mk number parts =>
      rw [node_eq, Definition.unfold_eq]
      refine Yields.bind (yields_shapeOf (Definition.formCompiles_of_ok hshape) ⟨number, parts⟩
        ?_ ?_) fun document => yields_ok _
      · rintro inner part inField' trail' schema same ⟨i, made⟩
        exact ih inner part (parts inner part) (expands.visit_part same place i) made
      · intro name _ hname
        exact following _ inField name expands hname

/-- Following a reference is expanding its name, as long as the cap exceeds the number of
definitions that were not expanded yet: each expansion uses up one of both. -/
theorem yields_follow {bindings : Bindings} {cap remaining : Nat}
    (compiled : DefinitionFile.compileAll (definitions.map Prod.fst) definitions = .ok bindings)
    (finite : ∀ member ∈ definitions, member.2.Numbers Number.IsFinite)
    (room : Definition.pending definitions expanded < remaining) (expands : trail.Expands expanded)
    {name : String} (hname : name ∈ definitions.map Prod.fst) :
    Yields (Projection.follow bindings cap remaining trail (.slot name))
      (Definition.unfoldForm definitions expanded inField (.ref name)) := by
  induction remaining generalizing expanded trail inField name with
  | zero => exact absurd room (Nat.not_lt_zero _)
  | succ remaining ih =>
    obtain ⟨definition, hlookup, hmem⟩ : ∃ definition, definitions.lookup name = some definition ∧
        (name, definition) ∈ definitions := DefinitionFile.exists_lookup_of_mem hname
    obtain ⟨schema, hbound, made⟩ := DefinitionFile.lookup_compileAll compiled hlookup
    have identity := Definition.identity_of_compile made
    have contains : trail.contains schema.identity = true ↔ name ∈ expanded := by
      rw [identity, ← expands name]
      simp [Trail.contains]
    simp only [Projection.follow, Reference.resolve, hbound, Definition.unfoldForm_ref, contains]
    split
    · exact yields_ok stub
    · next fresh =>
      rw [hlookup]
      have fewer := Definition.pending_cons_lt fresh hlookup
      refine yields_node_of_follow ?_ (finite _ hmem) (expands.visit_definition name) made
      intro trail' inField' other expands' hother
      refine ih ?_ expands' hother
      omega

end Projection

namespace DefinitionFile

/-- The document of a file by unfolding its definitions, each at most once along a path. -/
def unfold (file : DefinitionFile) : Option Members :=
  file.root.unfold file.definitions [] false

/-- With a cap above the number of definitions, the projection of a file is its unfolding. -/
theorem exists_unfold_eq_project {file : DefinitionFile} {graph : Graph}
    (finite : file.Numbers Number.IsFinite) (compiled : file.compile = .ok graph)
    (options : ProjectionOptions) (room : file.definitions.length + 1 ≤ options.maxDepth) :
    ∃ document, file.unfold = some document ∧
      graph.project options = .ok (options.headed document) := by
  obtain ⟨bindings, hbindings, compiled⟩ := bind_eq_ok.mp compiled
  obtain ⟨root, hroot, compiled⟩ := bind_eq_ok.mp compiled
  cases compiled
  have hnode : Yields (Projection.document bindings options.maxDepth root) file.unfold := by
    refine Projection.yields_node_of_follow ?_ finite.root Trail.Expands.start hroot
    intro trail inField name expands hname
    have all : Definition.pending file.definitions [] ≤ file.definitions.length :=
      List.countP_le_length
    exact Projection.yields_follow hbindings finite.definitions (by omega) expands hname
  obtain ⟨document, hdocument, hunfold⟩ := hnode
  exact ⟨document, hunfold, by rw [Graph.project_eq, hdocument]; rfl⟩

end DefinitionFile

end SchemaDoc
