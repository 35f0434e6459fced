import SchemaDoc.Proofs.Definition.ChainText
import SchemaDoc.Proofs.Definition.Unfolding

/-!
# The cap that a file needs

A file that loads is projected without failure by every cap above the number of its definitions,
and to the document that its definitions unfold to by name. Chains show that for no number of
definitions a smaller cap is enough.
-/
namespace SchemaDoc

namespace DefinitionFile

/-- With a cap above the number of definitions, the projection of a file that loads is its
unfolding, in which each definition is expanded at most once along a path. For every number of
definitions there is a file for which that number is too small a cap. -/
theorem project_eq_unfold :
    (∀ (text : String) (file : DefinitionFile) (graph : Graph) (options : ProjectionOptions),
      ofText text = .ok file → file.compile = .ok graph →
      file.definitions.length + 1 ≤ options.maxDepth →
        ∃ document, file.unfold = some document ∧
          graph.project options = .ok (options.headed document)) ∧
    ∀ count, 0 < count → ∃ (text : String) (file : DefinitionFile) (graph : Graph)
      (location : Location), ofText text = .ok file ∧ file.definitions.length = count ∧
        file.compile = .ok graph ∧
        graph.project ⟨count, false⟩ = .error (.depthExceeded count location) := by
  constructor
  · intro text file graph options loaded compiled room
    exact exists_unfold_eq_project (numbers_of_ofText loaded) compiled options room
  · intro count pos
    obtain ⟨last, rfl⟩ : ∃ last, count = last + 1 := ⟨count - 1, by omega⟩
    obtain ⟨graph, compiled, exceeded⟩ := Chain.project_eq_error pos
    have length : (Chain.file (last + 1)).definitions.length = last + 1 := by
      simp [Chain.file]
    exact ⟨Chain.text last, Chain.file (last + 1), graph, [], Chain.ofText_text last, length,
      compiled, exceeded⟩

/-- A definition that only refers to itself, with the least cap for one definition. -/
theorem selfReference_eq_unfold :
    ∃ graph document, ofText (Chain.text 0) = .ok (Chain.file 1) ∧
      (Chain.file 1).compile = .ok graph ∧ (Chain.file 1).definitions.length + 1 ≤ 2 ∧
      (Chain.file 1).unfold = some document ∧ graph.project ⟨2, false⟩ = .ok document := by
  obtain ⟨bindings, -, compiled⟩ := Chain.exists_compile Nat.one_pos
  have room : (Chain.file 1).definitions.length + 1 ≤ 2 := by decide
  obtain ⟨document, unfolds, projects⟩ :=
    project_eq_unfold.1 _ _ _ ⟨2, false⟩ (Chain.ofText_text 0) compiled room
  exact ⟨_, document, Chain.ofText_text 0, compiled, room, unfolds, projects⟩

end DefinitionFile

end SchemaDoc
