import SchemaDoc.Proofs.Definition.Compiling
import SchemaDoc.Proofs.Projection.Interchange

/-!
# Generated text and the projection of files

Titles and descriptions that are blank or generated can be deleted from a file, any choice of them
in any places: the file that is left still makes a graph, and its projection is the same. The two
files compile in step to schemas that no projection can tell apart.
-/
namespace SchemaDoc

namespace Annotations

/-- The text is blank, or of a form that generated text has. -/
def IsIdle (text : String) : Prop :=
  Text.isBlankText text = true ∨ Generated.isGenerated text = true

/-- The text stays, or is idle and deleted. -/
def Keeps (text left : Option String) : Prop :=
  left = text ∨ left = .none ∧ ∃ idle, text = some idle ∧ IsIdle idle

/-- What is left of annotations when idle texts are deleted. -/
structure Leaves (notes left : Annotations) : Prop where
  title : Keeps notes.title left.title
  description : Keeps notes.description left.description
  examples : left.examples = notes.examples

theorem filter_isPublished_of_keeps {text left : Option String} (h : Keeps text left) :
    left.filter isPublished = text.filter isPublished := by
  rcases h with rfl | ⟨rfl, idle, rfl, hidle⟩
  · rfl
  · have hidden : isPublished idle = false := by
      rcases hidle with h | h <;> simp [isPublished, h]
    simp [Option.filter, hidden]

/-- Idle texts are not published. -/
theorem Leaves.published_eq {notes left : Annotations} (h : notes.Leaves left) :
    left.published = notes.published := by
  unfold published
  rw [filter_isPublished_of_keeps h.title, filter_isPublished_of_keeps h.description, h.examples]

theorem Leaves.overlay_eq {notes left : Annotations} (h : notes.Leaves left) (document : Members) :
    left.overlay document = notes.overlay document := by
  unfold overlay
  rw [h.published_eq]

end Annotations

/-- Two forms of one kind whose parts are related. -/
inductive Form.Rel {δ ε : Type} (R : δ → ε → Prop) : Form δ → Form ε → Prop
  | string : Rel R .string .string
  | number : Rel R .number .number
  | boolean : Rel R .boolean .boolean
  | void : Rel R .void .void
  | unknown : Rel R .unknown .unknown
  | hidden : Rel R .hidden .hidden
  | literal (value : Json) : Rel R (.literal value) (.literal value)
  | struct {fields : List (Field δ)} {fields' : List (Field ε)} {index : Option δ}
      {index' : Option ε} : fields'.map Field.name = fields.map Field.name →
      fields'.map Field.optional = fields.map Field.optional →
      List.Forall₂ R (fields.map Field.node) (fields'.map Field.node) →
      Option.Rel R index index' → Rel R (.struct fields index) (.struct fields' index')
  | tuple {elements : List (Element δ)} {elements' : List (Element ε)} {rest : Option δ}
      {rest' : Option ε} : elements'.map Element.optional = elements.map Element.optional →
      List.Forall₂ R (elements.map Element.node) (elements'.map Element.node) →
      Option.Rel R rest rest' → Rel R (.tuple elements rest) (.tuple elements' rest')
  | array {items : δ} {items' : ε} (nonEmpty : Bool) : R items items' →
      Rel R (.array items nonEmpty) (.array items' nonEmpty)
  | union {members : List δ} {members' : List ε} : List.Forall₂ R members members' →
      Rel R (.union members) (.union members')
  | refinement {base : δ} {base' : ε} (constraints : List Constraint) : R base base' →
      Rel R (.refinement base constraints) (.refinement base' constraints)
  | ref (name : String) : Rel R (.ref name) (.ref name)

theorem Form.Rel.imp_of_parts {δ ε : Type} {R S : δ → ε → Prop} {form : Form δ} {form' : Form ε}
    (h : form.Rel R form') (himp : ∀ inner, form.Part inner → ∀ other, R inner other → S inner other) :
    form.Rel S form' := by
  cases h with
  | string => exact .string
  | number => exact .number
  | boolean => exact .boolean
  | void => exact .void
  | unknown => exact .unknown
  | hidden => exact .hidden
  | literal value => exact .literal value
  | struct hnames hoptional hnodes hindex =>
    refine .struct hnames hoptional ((forall₂_mem hnodes).imp ?_) ?_
    · rintro inner other ⟨mem, h⟩
      obtain ⟨field, hfield, rfl⟩ := List.mem_map.mp mem
      exact himp _ (.field hfield) other h
    · cases hindex with
      | none => exact .none
      | some h => exact .some (himp _ .index _ h)
  | tuple hoptional hnodes hrest =>
    refine .tuple hoptional ((forall₂_mem hnodes).imp ?_) ?_
    · rintro inner other ⟨mem, h⟩
      obtain ⟨element, helement, rfl⟩ := List.mem_map.mp mem
      exact himp _ (.element helement) other h
    · cases hrest with
      | none => exact .none
      | some h => exact .some (himp _ .rest _ h)
  | array nonEmpty h => exact .array nonEmpty (himp _ .items _ h)
  | union hmembers =>
    refine .union ((forall₂_mem hmembers).imp ?_)
    rintro inner other ⟨mem, h⟩
    exact himp _ (.member mem) other h
  | refinement constraints h => exact .refinement constraints (himp _ .base _ h)
  | ref name => exact .ref name

/-- What is left of a definition when some of the idle texts in it are deleted. -/
inductive Definition.Leaves : Definition → Definition → Prop
  | mk {form form' : Form Definition} {notes notes' : Annotations} :
      Form.Rel Leaves form form' → notes.Leaves notes' → Leaves (.mk form notes) (.mk form' notes')

/-- What is left of a file when some of the idle texts in it are deleted. -/
structure DefinitionFile.Leaves (file left : DefinitionFile) : Prop where
  names : left.definitions.map Prod.fst = file.definitions.map Prod.fst
  definitions : List.Forall₂ Definition.Leaves (file.definitions.map Prod.snd)
    (left.definitions.map Prod.snd)
  root : file.root.Leaves left.root

namespace Definition

variable {names : List String} {place : Identity}

/-- Wherever one definition compiles, the other one compiles to a node that projects alike. -/
def CompilesAlike (names : List String) (definition other : Definition) : Prop :=
  ∀ place schema, definition.compile names place = .ok schema →
    ∃ schema', other.compile names place = .ok schema' ∧ schema.Agrees schema'

theorem compileFields_alike {i : Nat} {fields fields' : List (Field Definition)}
    {made : List (Field Schema)} (hnames : fields'.map Field.name = fields.map Field.name)
    (hoptional : fields'.map Field.optional = fields.map Field.optional)
    (hnodes : List.Forall₂ (CompilesAlike names) (fields.map Field.node) (fields'.map Field.node))
    (h : compileFields names place i fields = .ok made) :
    ∃ made', compileFields names place i fields' = .ok made' ∧
      List.Forall₂ (fun field field' => field.node.Agrees field'.node ∧ field'.name = field.name ∧
        field'.optional = field.optional) made made' := by
  induction fields generalizing i fields' made with
  | nil =>
    cases h
    obtain rfl : fields' = [] := List.map_eq_nil_iff.mp hnames
    exact ⟨[], rfl, .nil⟩
  | cons field rest ih =>
    cases fields' with
    | nil => cases hnames
    | cons field' rest' =>
      obtain ⟨hname, hnames⟩ := List.cons_eq_cons.mp hnames
      obtain ⟨hopt, hoptional⟩ := List.cons_eq_cons.mp hoptional
      obtain ⟨hnode, hnodes⟩ := List.forall₂_cons.mp hnodes
      obtain ⟨schema, hschema, h⟩ := bind_eq_ok.mp h
      obtain ⟨others, hothers, h⟩ := bind_eq_ok.mp h
      cases h
      obtain ⟨schema', hschema', agrees⟩ := hnode _ _ hschema
      obtain ⟨others', hothers', rel⟩ := ih hnames hoptional hnodes hothers
      refine ⟨⟨field'.name, schema', field'.optional⟩ :: others', ?_,
        .cons ⟨agrees, hname, hopt⟩ rel⟩
      exact bind_eq_ok.mpr ⟨schema', hschema', bind_eq_ok.mpr ⟨others', hothers', rfl⟩⟩

theorem compileElements_alike {i : Nat} {elements elements' : List (Element Definition)}
    {made : List (Element Schema)}
    (hoptional : elements'.map Element.optional = elements.map Element.optional)
    (hnodes : List.Forall₂ (CompilesAlike names) (elements.map Element.node)
      (elements'.map Element.node))
    (h : compileElements names place i elements = .ok made) :
    ∃ made', compileElements names place i elements' = .ok made' ∧
      List.Forall₂ (fun element element' => element.node.Agrees element'.node ∧
        element'.optional = element.optional) made made' := by
  induction elements generalizing i elements' made with
  | nil =>
    cases h
    obtain rfl : elements' = [] := List.map_eq_nil_iff.mp hoptional
    exact ⟨[], rfl, .nil⟩
  | cons element rest ih =>
    cases elements' with
    | nil => cases hoptional
    | cons element' rest' =>
      obtain ⟨hopt, hoptional⟩ := List.cons_eq_cons.mp hoptional
      obtain ⟨hnode, hnodes⟩ := List.forall₂_cons.mp hnodes
      obtain ⟨schema, hschema, h⟩ := bind_eq_ok.mp h
      obtain ⟨others, hothers, h⟩ := bind_eq_ok.mp h
      cases h
      obtain ⟨schema', hschema', agrees⟩ := hnode _ _ hschema
      obtain ⟨others', hothers', rel⟩ := ih hoptional hnodes hothers
      refine ⟨⟨schema', element'.optional⟩ :: others', ?_, .cons ⟨agrees, hopt⟩ rel⟩
      exact bind_eq_ok.mpr ⟨schema', hschema', bind_eq_ok.mpr ⟨others', hothers', rfl⟩⟩

theorem compileMembers_alike {i : Nat} {members members' : List Definition} {made : List Schema}
    (hmembers : List.Forall₂ (CompilesAlike names) members members')
    (h : compileMembers names place i members = .ok made) :
    ∃ made', compileMembers names place i members' = .ok made' ∧
      List.Forall₂ Schema.Agrees made made' := by
  induction hmembers generalizing i made with
  | nil =>
    cases h
    exact ⟨[], rfl, .nil⟩
  | cons hmember _ ih =>
    obtain ⟨schema, hschema, h⟩ := bind_eq_ok.mp h
    obtain ⟨others, hothers, h⟩ := bind_eq_ok.mp h
    cases h
    obtain ⟨schema', hschema', agrees⟩ := hmember _ _ hschema
    obtain ⟨others', hothers', rel⟩ := ih hothers
    refine ⟨schema' :: others', ?_, .cons agrees rel⟩
    exact bind_eq_ok.mpr ⟨schema', hschema', bind_eq_ok.mpr ⟨others', hothers', rfl⟩⟩

theorem compileOption_alike {definition? other? : Option Definition} {made? : Option Schema}
    (h : Option.Rel (CompilesAlike names) definition? other?)
    (hmade : compileOption names place definition? = .ok made?) :
    ∃ made', compileOption names place other? = .ok made' ∧
      Option.Rel Schema.Agrees made? made' := by
  cases h with
  | none =>
    cases hmade
    exact ⟨none, rfl, .none⟩
  | some alike =>
    obtain ⟨schema, hschema, hmade⟩ := bind_eq_ok.mp hmade
    cases hmade
    obtain ⟨schema', hschema', agrees⟩ := alike _ _ hschema
    exact ⟨some schema', bind_eq_ok.mpr ⟨schema', hschema', rfl⟩, .some agrees⟩

theorem compileStruct_alike {fields fields' : List (Field Definition)}
    {index index' : Option Definition} {shape : Shape Schema}
    (hnames : fields'.map Field.name = fields.map Field.name)
    (hoptional : fields'.map Field.optional = fields.map Field.optional)
    (hnodes : List.Forall₂ (CompilesAlike names) (fields.map Field.node) (fields'.map Field.node))
    (hindex : Option.Rel (CompilesAlike names) index index')
    (hshape : compileForm names place (.struct fields index) = .ok shape) :
    ∃ shape', compileForm names place (.struct fields' index') = .ok shape' ∧
      shape.Rel Schema.Agrees shape' := by
  obtain ⟨made, hfields, hshape⟩ := bind_eq_ok.mp hshape
  obtain ⟨madeIndex, hmadeIndex, hshape⟩ := bind_eq_ok.mp hshape
  obtain ⟨made', hfields', rel⟩ := compileFields_alike hnames hoptional hnodes hfields
  obtain ⟨madeIndex', hmadeIndex', relIndex⟩ := compileOption_alike hindex hmadeIndex
  have hlength : fields'.length = fields.length := by
    simpa using congrArg List.length hnames
  have hmadeNames : made'.map Field.name = made.map Field.name :=
    map_eq_of_forall₂ (fun _ _ h => h.2.1) rel
  split at hshape
  · cases hshape
  · next hfirst =>
    cases hshape
    refine ⟨.struct made' madeIndex', ?_, .struct rel relIndex⟩
    rw [← hlength] at hmadeIndex'
    refine bind_eq_ok.mpr ⟨made', hfields', bind_eq_ok.mpr ⟨madeIndex', hmadeIndex', ?_⟩⟩
    rw [hmadeNames, hfirst]

theorem compileTuple_alike {elements elements' : List (Element Definition)}
    {rest rest' : Option Definition} {shape : Shape Schema}
    (hoptional : elements'.map Element.optional = elements.map Element.optional)
    (hnodes : List.Forall₂ (CompilesAlike names) (elements.map Element.node)
      (elements'.map Element.node))
    (hrest : Option.Rel (CompilesAlike names) rest rest')
    (hshape : compileForm names place (.tuple elements rest) = .ok shape) :
    ∃ shape', compileForm names place (.tuple elements' rest') = .ok shape' ∧
      shape.Rel Schema.Agrees shape' := by
  obtain ⟨made, helements, hshape⟩ := bind_eq_ok.mp hshape
  obtain ⟨madeRest, hmadeRest, hshape⟩ := bind_eq_ok.mp hshape
  cases hshape
  obtain ⟨made', helements', rel⟩ := compileElements_alike hoptional hnodes helements
  obtain ⟨madeRest', hmadeRest', relRest⟩ := compileOption_alike hrest hmadeRest
  have hlength : elements'.length = elements.length := by
    simpa using congrArg List.length hoptional
  rw [← hlength] at hmadeRest'
  exact ⟨_, bind_eq_ok.mpr ⟨made', helements', bind_eq_ok.mpr ⟨madeRest', hmadeRest', rfl⟩⟩,
    .tuple rel relRest⟩

theorem compileUnion_alike {members members' : List Definition} {shape : Shape Schema}
    (hmembers : List.Forall₂ (CompilesAlike names) members members')
    (hshape : compileForm names place (.union members) = .ok shape) :
    ∃ shape', compileForm names place (.union members') = .ok shape' ∧
      shape.Rel Schema.Agrees shape' := by
  obtain ⟨made, hmade, hshape⟩ := bind_eq_ok.mp hshape
  obtain ⟨made', hmade', rel⟩ := compileMembers_alike hmembers hmade
  split at hshape
  · cases hshape
  · next hnonempty =>
    cases hshape
    refine ⟨.union made', bind_eq_ok.mpr ⟨made', hmade', if_neg ?_⟩, .union rel⟩
    cases rel with
    | nil => exact hnonempty
    | cons => simp

/-- Forms whose parts compile alike compile to shapes whose parts project alike. -/
theorem compileForm_alike {form form' : Form Definition} {shape : Shape Schema}
    (h : form.Rel (CompilesAlike names) form')
    (hshape : compileForm names place form = .ok shape) :
    ∃ shape', compileForm names place form' = .ok shape' ∧ shape.Rel Schema.Agrees shape' := by
  cases h with
  | string => cases hshape; exact ⟨_, rfl, .primitive _⟩
  | number => cases hshape; exact ⟨_, rfl, .primitive _⟩
  | boolean => cases hshape; exact ⟨_, rfl, .primitive _⟩
  | void => cases hshape; exact ⟨_, rfl, .primitive _⟩
  | unknown => cases hshape; exact ⟨_, rfl, .primitive _⟩
  | hidden => cases hshape; exact ⟨_, rfl, .hidden⟩
  | literal value =>
    obtain ⟨literal, hliteral, rfl⟩ := map_eq_ok.mp hshape
    exact ⟨_, map_eq_ok.mpr ⟨literal, hliteral, rfl⟩, .literal literal⟩
  | struct hnames hoptional hnodes hindex =>
    exact compileStruct_alike hnames hoptional hnodes hindex hshape
  | tuple hoptional hnodes hrest => exact compileTuple_alike hoptional hnodes hrest hshape
  | array nonEmpty alike =>
    obtain ⟨item, hitem, hshape⟩ := bind_eq_ok.mp hshape
    cases hshape
    obtain ⟨item', hitem', agrees⟩ := alike _ _ hitem
    refine ⟨_, bind_eq_ok.mpr ⟨item', hitem', rfl⟩, .tuple ?_ (.some agrees)⟩
    cases nonEmpty with
    | true => exact .cons ⟨agrees, rfl⟩ .nil
    | false => exact .nil
  | union hmembers => exact compileUnion_alike hmembers hshape
  | refinement constraints alike =>
    obtain ⟨base, hbase, hshape⟩ := bind_eq_ok.mp hshape
    cases hshape
    obtain ⟨base', hbase', agrees⟩ := alike _ _ hbase
    exact ⟨_, bind_eq_ok.mpr ⟨base', hbase', rfl⟩, .refinement constraints agrees⟩
  | ref name =>
    have hname : compileForm names place (.ref name) = .ok shape := hshape
    unfold compileForm at hname
    split at hname
    · cases hname
      exact ⟨_, hshape, .slot name⟩
    · cases hname

/-- Deleting idle texts changes nothing that a projection can see. -/
theorem Leaves.compilesAlike {definition left : Definition} (h : definition.Leaves left) :
    CompilesAlike names definition left := by
  induction definition using Definition.induction_on_parts generalizing left with
  | mk form notes ih =>
    intro place schema hschema
    obtain ⟨shape, hshape, rfl⟩ := compile_eq_ok hschema
    cases h with
    | mk hform hnotes =>
      have alike := hform.imp_of_parts fun inner part other hinner => ih inner part hinner
      obtain ⟨shape', hshape', rel⟩ := compileForm_alike alike hshape
      exact ⟨_, bind_eq_ok.mpr ⟨shape', hshape', rfl⟩, Schema.agrees_of_rel rel hnotes.overlay_eq⟩

end Definition

namespace DefinitionFile

theorem compileAll_alike {names : List String} {definitions others : List (String × Definition)}
    {bindings : Bindings} (hnames : others.map Prod.fst = definitions.map Prod.fst)
    (h : List.Forall₂ (Definition.CompilesAlike names) (definitions.map Prod.snd)
      (others.map Prod.snd)) (compiled : compileAll names definitions = .ok bindings) :
    ∃ bindings', compileAll names others = .ok bindings' ∧ bindings.Agree bindings' := by
  induction definitions generalizing others bindings with
  | nil =>
    cases compiled
    obtain rfl : others = [] := List.map_eq_nil_iff.mp hnames
    exact ⟨[], rfl, .nil⟩
  | cons member rest ih =>
    cases others with
    | nil => cases hnames
    | cons member' rest' =>
      obtain ⟨name, definition⟩ := member
      obtain ⟨name', definition'⟩ := member'
      obtain ⟨rfl, hothers⟩ : name' = name ∧ rest'.map Prod.fst = rest.map Prod.fst :=
        List.cons_eq_cons.mp hnames
      obtain ⟨hfirst, hrest⟩ := List.forall₂_cons.mp h
      obtain ⟨schema, hschema, compiled⟩ := bind_eq_ok.mp compiled
      obtain ⟨bound, hbound, compiled⟩ := bind_eq_ok.mp compiled
      cases compiled
      obtain ⟨schema', hschema', agrees⟩ := hfirst _ _ hschema
      obtain ⟨bound', hbound', agree⟩ := ih hothers hrest hbound
      refine ⟨(name', schema') :: bound', ?_, .cons ⟨rfl, agrees⟩ agree⟩
      exact bind_eq_ok.mpr ⟨schema', hschema', bind_eq_ok.mpr ⟨bound', hbound', rfl⟩⟩

/-- Deleting blank and generated titles and descriptions from a file, as many and wherever, leaves
a file that compiles, and whose projections are the same with all options. -/
theorem project_eq_of_leaves {file left : DefinitionFile} {graph : Graph} (h : file.Leaves left)
    (compiled : file.compile = .ok graph) :
    ∃ graph', left.compile = .ok graph' ∧
      ∀ options, graph'.project options = graph.project options := by
  obtain ⟨bindings, hbindings, compiled⟩ := bind_eq_ok.mp compiled
  obtain ⟨root, hroot, compiled⟩ := bind_eq_ok.mp compiled
  cases compiled
  have alike : ∀ {definition other : Definition}, definition.Leaves other →
      Definition.CompilesAlike file.names definition other :=
    fun leaves => leaves.compilesAlike
  have hdefinitions := h.definitions.imp fun _ _ leaves => alike leaves
  obtain ⟨bindings', hbindings', agree⟩ := compileAll_alike h.names hdefinitions hbindings
  obtain ⟨root', hroot', agrees⟩ := alike h.root _ _ hroot
  refine ⟨⟨bindings', root'⟩, ?_, fun options => Graph.project_eq_of_agree agree agrees options⟩
  have names : left.names = file.names := h.names
  rw [compile, names]
  exact bind_eq_ok.mpr ⟨bindings', hbindings', bind_eq_ok.mpr ⟨root', hroot', rfl⟩⟩

/-! ## A file with generated text -/

/-- Readings in a list, with the titles of the list and of its links. -/
def readings (listTitle linkTitle : Option String) : DefinitionFile where
  definitions := [("List", .mk
    (.struct [⟨"value", .mk (.refinement (.mk .number .none) []) ⟨"a number less than 9", none, []⟩,
        false⟩, ⟨"next", .mk (.ref "List") ⟨linkTitle, none, []⟩, true⟩] none)
    ⟨listTitle, some "Values in order", []⟩)]
  root := .mk (.ref "List") ⟨some "Readings", none, []⟩

/-- One generated title and a blank one are deleted, another generated one stays. -/
theorem readings_leaves :
    (readings (some "struct") (some " ")).Leaves (readings none none) := by
  have hstruct : Annotations.Leaves ⟨some "struct", some "Values in order", []⟩
      ⟨none, some "Values in order", []⟩ :=
    ⟨.inr ⟨rfl, "struct", rfl, .inr (by decide)⟩, .inl rfl, rfl⟩
  have hblank : Annotations.Leaves ⟨some " ", none, []⟩ ⟨none, none, []⟩ :=
    ⟨.inr ⟨rfl, " ", rfl, .inl (by decide)⟩, .inl rfl, rfl⟩
  have same : ∀ notes : Annotations, notes.Leaves notes :=
    fun notes => ⟨.inl rfl, .inl rfl, rfl⟩
  refine ⟨rfl, .cons (.mk (.struct rfl rfl ?_ .none) hstruct) .nil, .mk (.ref _) (same _)⟩
  exact .cons (.mk (.refinement [] (.mk .number (same _))) (same _))
    (.cons (.mk (.ref _) hblank) .nil)

theorem readings_project_eq :
    (readings (some "struct") (some " ")).Leaves (readings none none) ∧
      ∃ graph graph', (readings (some "struct") (some " ")).compile = .ok graph ∧
        (readings none none).compile = .ok graph' ∧
        graph'.project ⟨2, true⟩ = graph.project ⟨2, true⟩ := by
  have compiled : ∃ graph, (readings (some "struct") (some " ")).compile = .ok graph := ⟨_, rfl⟩
  obtain ⟨graph, compiled⟩ := compiled
  obtain ⟨graph', compiled', same⟩ := project_eq_of_leaves readings_leaves compiled
  exact ⟨readings_leaves, graph, graph', compiled, compiled', same ⟨2, true⟩⟩

end DefinitionFile

end SchemaDoc
