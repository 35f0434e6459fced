import SchemaDoc.Definition.Format
import SchemaDoc.Proofs.Definition.References
import SchemaDoc.Proofs.Definition.Renaming
import SchemaDoc.Proofs.Json.Members
import SchemaDoc.Proofs.Reading.Ensures

/-!
# The order and the names of definitions

Definitions are found by name, so a projection sees neither their order nor what they are called
nor those that nothing refers to. A file is in another one if its definitions are there under other
names and their references are renamed with them; then both roots project in the same way. Files
that are rearranged are in one another in this sense.
-/
namespace SchemaDoc

/-- Two files with the same definitions in another order or under other names, or of which the
second has one more definition, of its own name, that stands anywhere among the others. -/
inductive DefinitionFile.Rearranged : DefinitionFile → DefinitionFile → Prop
  | reordered {definitions arranged : List (String × Definition)} {root : Definition} :
      definitions.Perm arranged → Rearranged ⟨definitions, root⟩ ⟨arranged, root⟩
  | renamed {file : DefinitionFile} {f : String → String} :
      (∀ name ∈ file.names, ∀ other ∈ file.names, f name = f other → name = other) →
      Rearranged file (file.rename f)
  | added {before after : List (String × Definition)} {root definition : Definition}
      {name : String} : name ∉ (before ++ after).map Prod.fst →
      definition.WellFormed (name :: (before ++ after).map Prod.fst) →
      Rearranged ⟨before ++ after, root⟩ ⟨before ++ (name, definition) :: after, root⟩

/-! ## Files in other files -/

/-- The definitions of a file are, under other names, among those of another one, which has the
same root. Any others that it has are well formed there. -/
structure DefinitionFile.Embeds (f : String → String) (file other : DefinitionFile) : Prop where
  nodup : other.names.Nodup
  injective : ∀ name ∈ file.names, ∀ name' ∈ file.names, f name = f name' → name = name'
  definitions : ∀ member ∈ file.definitions, (f member.1, member.2.rename f) ∈ other.definitions
  others : ∀ member ∈ other.definitions, member.2.WellFormed other.names ∨
    ∃ origin ∈ file.definitions, member = (f origin.1, origin.2.rename f)
  root : other.root = file.root.rename f

namespace DefinitionFile

variable {f : String → String} {file other : DefinitionFile}

theorem Embeds.mem_names (h : file.Embeds f other) : ∀ name ∈ file.names, f name ∈ other.names := by
  intro name mem
  obtain ⟨member, hmember, rfl⟩ := List.mem_map.mp mem
  exact List.mem_map_of_mem (h.definitions member hmember)

theorem wellFormed_iff (file : DefinitionFile) :
    file.WellFormed ↔ (∀ member ∈ file.definitions, member.2.WellFormed file.names) ∧
      file.root.WellFormed file.names := by
  simp only [WellFormed, positions, Definition.WellFormed, List.forall_mem_append,
    List.forall_mem_flatMap]

theorem Embeds.wellFormed (h : file.Embeds f other) (sound : file.WellFormed) :
    other.WellFormed := by
  rw [wellFormed_iff] at sound ⊢
  constructor
  · intro member mem
    rcases h.others member mem with own | ⟨origin, horigin, rfl⟩
    · exact own
    · exact (sound.1 origin horigin).rename h.mem_names
  · rw [h.root]
    exact sound.2.rename h.mem_names

theorem names_rename (file : DefinitionFile) (f : String → String) :
    (file.rename f).names = file.names.map f := by
  simp [DefinitionFile.rename, names]

theorem embeds_reordered {definitions arranged : List (String × Definition)} {root : Definition}
    (perm : definitions.Perm arranged) (nodup : (definitions.map Prod.fst).Nodup) :
    Embeds id ⟨definitions, root⟩ ⟨arranged, root⟩ where
  nodup := (perm.map Prod.fst).nodup nodup
  injective := fun _ _ _ _ => id
  definitions := fun member mem => by
    have kept : member ∈ arranged := perm.mem_iff.mp mem
    rwa [Definition.rename_id]
  others := fun member mem => by
    have kept : member ∈ definitions := perm.mem_iff.mpr mem
    exact .inr ⟨member, kept, by rw [Definition.rename_id]; rfl⟩
  root := root.rename_id.symm

theorem embeds_renamed
    (injective : ∀ name ∈ file.names, ∀ name' ∈ file.names, f name = f name' → name = name')
    (nodup : file.names.Nodup) : file.Embeds f (file.rename f) where
  nodup := by
    rw [names_rename]
    exact nodup.map_on injective
  injective := injective
  definitions := fun _ mem => List.mem_map_of_mem mem
  others := fun member mem => by
    obtain ⟨origin, horigin, rfl⟩ := List.mem_map.mp mem
    exact .inr ⟨origin, horigin, rfl⟩
  root := rfl

theorem embeds_added {before after : List (String × Definition)} {root definition : Definition}
    {name : String} (fresh : name ∉ (before ++ after).map Prod.fst)
    (wellFormed : definition.WellFormed (name :: (before ++ after).map Prod.fst))
    (nodup : ((before ++ after).map Prod.fst).Nodup) :
    Embeds id ⟨before ++ after, root⟩ ⟨before ++ (name, definition) :: after, root⟩ := by
  have perm : (before ++ (name, definition) :: after).Perm
      ((name, definition) :: (before ++ after)) := List.perm_middle
  have names := perm.map Prod.fst
  constructor
  · exact names.nodup_iff.mpr (List.nodup_cons.mpr ⟨fresh, nodup⟩)
  · exact fun _ _ _ _ => id
  · intro member mem
    rw [Definition.rename_id]
    exact perm.mem_iff.mpr (List.mem_cons_of_mem _ mem)
  · intro member mem
    rcases List.mem_cons.mp (perm.mem_iff.mp mem) with rfl | mem
    · have own := wellFormed.rename (f := id) fun name' mem => names.mem_iff.mpr mem
      rw [Definition.rename_id] at own
      exact .inl own
    · exact .inr ⟨member, mem, by rw [Definition.rename_id]; rfl⟩
  · exact root.rename_id.symm

/-- A file is, in one way or another, in each file that it is rearranged to. -/
theorem Rearranged.embeds (h : file.Rearranged other) (nodup : file.names.Nodup) :
    ∃ f, file.Embeds f other := by
  cases h with
  | reordered perm => exact ⟨id, embeds_reordered perm nodup⟩
  | renamed injective => exact ⟨_, embeds_renamed injective nodup⟩
  | added fresh wellFormed => exact ⟨id, embeds_added fresh wellFormed nodup⟩

/-! ## Projections -/

variable {graph graph' : Graph}

/-- A slot and the slot of the new name are bound to what one definition and the renamed one
compile to. -/
theorem Embeds.resolve (h : file.Embeds f other) (compiled : file.compile = .ok graph)
    (compiled' : other.compile = .ok graph') {name : String} (mem : name ∈ file.names) :
    ∃ (definition : Definition) (target target' : Schema),
      (Reference.slot name).resolve graph.bindings = .ok target ∧
      (Reference.slot (f name)).resolve graph'.bindings = .ok target' ∧
      definition.compile file.names (.definition name) = .ok target ∧
      (definition.rename f).compile other.names (.definition (f name)) = .ok target' := by
  obtain ⟨definition, target, hlookup, hresolve, made⟩ := resolve_slot compiled mem
  obtain ⟨definition', target', hlookup', hresolve', made'⟩ :=
    resolve_slot compiled' (h.mem_names name mem)
  have listed : (f name, definition.rename f) ∈ other.definitions :=
    h.definitions _ (mem_of_lookup hlookup)
  have found := lookup_of_mem h.nodup listed
  cases hlookup'.symm.trans found
  exact ⟨definition, target, target', hresolve, hresolve', made, made'⟩

/-- Where the same definitions have been entered, the same references close a cycle, and the others
lead to the same documents. -/
theorem Embeds.follow_eq (h : file.Embeds f other) (compiled : file.compile = .ok graph)
    (compiled' : other.compile = .ok graph') (cap remaining : Nat) (location : Location)
    (visited visited' : List Identity) (renames : Renames f file.names visited visited')
    (name : String) (mem : name ∈ file.names) :
    Projection.follow graph'.bindings cap remaining ⟨location, visited'⟩ (.slot (f name)) =
      Projection.follow graph.bindings cap remaining ⟨location, visited⟩ (.slot name) := by
  induction remaining generalizing location visited visited' name with
  | zero => rfl
  | succ remaining ih =>
    obtain ⟨definition, target, target', hresolve, hresolve', made, made'⟩ :=
      h.resolve compiled compiled' mem
    have met : (Trail.mk location visited').contains target'.identity =
        (Trail.mk location visited).contains target.identity := by
      rw [Definition.identity_of_compile made, Definition.identity_of_compile made',
        Trail.contains_definition, Trail.contains_definition]
      exact decide_eq_decide.mpr (renames name mem)
    have alike : target.Matches (Projection.follow graph.bindings cap remaining)
        (Projection.follow graph'.bindings cap remaining) visited visited' target' :=
      Definition.matches_of_rename ih made made' (renames.definition h.injective mem)
    simp only [Projection.follow, hresolve, hresolve', met, alike.node]

/-- A root projects in the same way wherever its file is. -/
theorem Embeds.project_eq (h : file.Embeds f other) (compiled : file.compile = .ok graph)
    (compiled' : other.compile = .ok graph') (options : ProjectionOptions) :
    graph'.project options = graph.project options := by
  have following := h.follow_eq compiled compiled' options.maxDepth options.maxDepth
  have hroot := (compile_eq_ok_iff.mp compiled).2
  have hroot' := (compile_eq_ok_iff.mp compiled').2
  rw [h.root] at hroot'
  have start : Renames f file.names [.root] [.root] :=
    Renames.nil.cons (fun _ => nofun) fun _ => nofun
  have alike := Definition.matches_of_rename following hroot hroot' start
  rw [Graph.project_eq, Graph.project_eq, Projection.document, Projection.document, Trail.start,
    alike.node]

/-- Neither the order of the definitions matters to a file that compiles, nor their names, nor
whether there is one more that is well formed: the rearranged file compiles as well, and all its
projections are the same. -/
theorem project_eq_of_rearranged (nodup : file.names.Nodup) (h : file.Rearranged other)
    (compiled : file.compile = .ok graph) :
    ∃ graph', other.compile = .ok graph' ∧
      ∀ options, graph'.project options = graph.project options := by
  obtain ⟨f, embeds⟩ := h.embeds nodup
  have sound : file.WellFormed := file.exists_compile_iff.mp ⟨graph, compiled⟩
  obtain ⟨graph', compiled'⟩ := other.exists_compile_iff.mpr (embeds.wellFormed sound)
  exact ⟨graph', compiled', embeds.project_eq compiled compiled'⟩

/-! ## The names of a file that is read -/

theorem mem_names_put {definitions : List (String × Definition)} {name other : String}
    {definition : Definition} (h : other ∈ (put definitions name definition).map Prod.fst) :
    other ∈ definitions.map Prod.fst ∨ other = name := by
  induction definitions with
  | nil => exact .inr (List.mem_singleton.mp h)
  | cons first rest ih =>
    unfold put at h
    split at h
    · simp_all
    · simp only [List.map_cons, List.mem_cons] at h ⊢
      tauto

theorem nodup_names_put {definitions : List (String × Definition)} (name : String)
    (definition : Definition) (nodup : (definitions.map Prod.fst).Nodup) :
    ((put definitions name definition).map Prod.fst).Nodup := by
  induction definitions with
  | nil => exact List.nodup_singleton name
  | cons first rest ih =>
    obtain ⟨fresh, nodup⟩ := List.nodup_cons.mp nodup
    unfold put
    split
    · next same => exact List.nodup_cons.mpr ⟨same ▸ fresh, nodup⟩
    · next differs =>
      refine List.nodup_cons.mpr ⟨fun mem => ?_, ih nodup⟩
      rcases mem_names_put mem with mem | same
      · exact fresh mem
      · exact differs same

theorem nodup_names_foldl_put {definitions written : List (String × Definition)}
    (nodup : (definitions.map Prod.fst).Nodup) :
    ((written.foldl (fun acc member => put acc member.1 member.2) definitions).map
      Prod.fst).Nodup := by
  induction written generalizing definitions with
  | nil => exact nodup
  | cons member rest ih => exact ih (nodup_names_put member.1 member.2 nodup)

/-- No two definitions of a file that is read have one name. -/
theorem nodup_names_of_read {origin : Origin} {source : Source} {file : DefinitionFile}
    (h : read origin source = .ok file) : file.names.Nodup := by
  have written : Reader.Ensures (fun _ => True) (fun origin source =>
      (Reader.map Definition.read origin source).map fun written =>
        written.foldl (fun acc member => put acc member.1 member.2) [])
      fun definitions => (definitions.map Prod.fst).Nodup := by
    intro origin source definitions _ hread
    obtain ⟨members, -, rfl⟩ := map_eq_ok.mp hread
    exact nodup_names_foldl_put List.nodup_nil
  have invariant : Record.Invariant (fun _ => True) record
      (fun draft => ((draft.definitions.getD []).map Prod.fst).Nodup)
      (fun file => file.names.Nodup) := by
    constructor
    · exact List.nodup_nil
    · intro slot mem
      simp only [record, List.mem_cons, List.not_mem_nil, or_false] at mem
      rcases mem with rfl | rfl
      · exact Slot.keeps_of written fun _ _ hnodup _ => hnodup
      · exact Slot.keeps_of (Reader.ensures_true Definition.read) fun _ _ _ hinv => hinv
    · intro draft file hinv hfinish
      obtain ⟨root, -, hfinish⟩ := bind_eq_ok.mp hfinish
      cases hfinish
      exact hinv
  exact invariant.ensures origin source file (fun _ _ => trivial) h

/-! ## Folders rearranged -/

/-- A link to a folder or to another link. -/
def link : Definition := .mk (.union [.mk (.ref "Folder") .none, .mk (.ref "Link") .none]) .none

theorem link_wellFormed : link.WellFormed ["Link", "Folder", "File"] := by
  have positions : link.positions =
      [.mk (.ref "Folder") .none, .mk (.ref "Link") .none, link] := by
    simp [link, Definition.positions_eq, Definition.form, Form.parts]
  rw [Definition.WellFormed, positions]
  decide

/-- The folders with a definition of links between those of folders and files. -/
def linkedFolders : DefinitionFile where
  definitions := folders.definitions.take 1 ++ ("Link", link) :: folders.definitions.drop 1
  root := folders.root

theorem folders_rearranged_linked : folders.Rearranged linkedFolders := by
  have whole : folders = ⟨folders.definitions.take 1 ++ folders.definitions.drop 1, folders.root⟩ :=
    rfl
  rw [whole]
  exact .added (by decide) link_wellFormed

theorem folders_rearranged_renamed : folders.Rearranged (folders.rename ("My" ++ ·)) :=
  .renamed (by decide)

theorem folders_rearranged_reversed :
    folders.Rearranged ⟨folders.definitions.reverse, folders.root⟩ :=
  .reordered (List.reverse_perm folders.definitions).symm

/-- With links, with other names and with the files before the folders, the document is the same. -/
theorem folders_project_eq :
    ∃ graph linked renamed reversed, folders.compile = .ok graph ∧
      linkedFolders.compile = .ok linked ∧ linked.project ⟨2, true⟩ = graph.project ⟨2, true⟩ ∧
      (folders.rename ("My" ++ ·)).compile = .ok renamed ∧
      renamed.project ⟨2, true⟩ = graph.project ⟨2, true⟩ ∧
      DefinitionFile.compile ⟨folders.definitions.reverse, folders.root⟩ = .ok reversed ∧
      reversed.project ⟨2, true⟩ = graph.project ⟨2, true⟩ := by
  have compiled : ∃ graph, folders.compile = .ok graph := ⟨_, rfl⟩
  obtain ⟨graph, compiled⟩ := compiled
  have nodup : folders.names.Nodup := by decide
  obtain ⟨linked, hlinked, sameLinked⟩ :=
    project_eq_of_rearranged nodup folders_rearranged_linked compiled
  obtain ⟨renamed, hrenamed, sameRenamed⟩ :=
    project_eq_of_rearranged nodup folders_rearranged_renamed compiled
  obtain ⟨reversed, hreversed, sameReversed⟩ :=
    project_eq_of_rearranged nodup folders_rearranged_reversed compiled
  exact ⟨graph, linked, renamed, reversed, compiled, hlinked, sameLinked _, hrenamed,
    sameRenamed _, hreversed, sameReversed _⟩

end DefinitionFile

end SchemaDoc
