import Mathlib.Data.List.Nodup
import SchemaDoc.Proofs.Definition.Unfolding

/-!
# Chains of definitions

In a chain every definition refers to the one before it, and the first one to itself. A projection
from the last one meets one more reference than there are definitions on its path, so it needs a
cap above their number.
-/
namespace SchemaDoc

namespace Chain

def name (k : Nat) : String := String.ofList (List.replicate (k + 1) 'x')

/-- A definition that only refers to another one. -/
def referTo (target : String) : Definition := .mk (.ref target) .none

/-- The definition of a place in the chain. -/
def link (k : Nat) : String × Definition := (name k, referTo (name (k - 1)))

/-- A chain of some definitions, entered at the last one. -/
def file (count : Nat) : DefinitionFile where
  definitions := (List.range count).map link
  root := referTo (name (count - 1))

theorem name_injective {i j : Nat} (h : name i = name j) : i = j := by
  have hlength : (name i).length = (name j).length := congrArg String.length h
  simp only [name, String.length_ofList, List.length_replicate] at hlength
  omega

variable {count : Nat}

theorem names_eq (count : Nat) : (file count).names = (List.range count).map name := by
  simp [DefinitionFile.names, file, link, Function.comp_def]

theorem mem_names {k : Nat} : name k ∈ (file count).names ↔ k < count := by
  rw [names_eq, List.mem_map]
  constructor
  · rintro ⟨i, hi, heq⟩
    rw [name_injective heq] at hi
    exact List.mem_range.mp hi
  · intro h
    exact ⟨k, List.mem_range.mpr h, rfl⟩

theorem nodup_names (count : Nat) : (file count).names.Nodup := by
  rw [names_eq]
  exact List.Nodup.map (fun _ _ => name_injective) List.nodup_range

theorem lookup_link {k : Nat} (h : k < count) :
    (file count).definitions.lookup (name k) = some (referTo (name (k - 1))) := by
  obtain ⟨definition, hlookup, hmem⟩ :=
    DefinitionFile.exists_lookup_of_mem (mem_names.mpr h)
  obtain ⟨i, -, heq⟩ := List.mem_map.mp hmem
  have hi : i = k := name_injective (congrArg Prod.fst heq)
  have hdefinition : definition = referTo (name (k - 1)) := by
    rw [← hi]
    exact (congrArg Prod.snd heq).symm
  rw [hlookup, hdefinition]

theorem compile_referTo {names : List String} {target : String} (h : target ∈ names)
    (place : Identity) :
    (referTo target).compile names place = .ok (.node place (.recursive (.slot target)) .none) := by
  simp only [referTo, Definition.compile, Definition.compileForm, if_pos h]
  rfl

theorem exists_compileAll {names : List String} {definitions : List (String × Definition)}
    (h : ∀ member ∈ definitions, ∃ schema,
      member.2.compile names (.definition member.1) = .ok schema) :
    ∃ bindings, DefinitionFile.compileAll names definitions = .ok bindings := by
  induction definitions with
  | nil => exact ⟨[], rfl⟩
  | cons first rest ih =>
    obtain ⟨⟨schema, hschema⟩, hrest⟩ := List.forall_mem_cons.mp h
    obtain ⟨others, hothers⟩ := ih hrest
    exact ⟨(first.1, schema) :: others, by
      rw [DefinitionFile.compileAll, hschema, hothers]
      rfl⟩

/-- A chain of at least one definition makes a graph. -/
theorem exists_compile (h : 0 < count) :
    ∃ bindings, DefinitionFile.compileAll (file count).names (file count).definitions =
      .ok bindings ∧ (file count).compile = .ok ⟨bindings,
        .node .root (.recursive (.slot (name (count - 1)))) .none⟩ := by
  have hlinks : ∀ member ∈ (file count).definitions, ∃ schema,
      member.2.compile (file count).names (.definition member.1) = .ok schema := by
    intro member mem
    obtain ⟨k, hk, rfl⟩ := List.mem_map.mp mem
    have hbefore : name (k - 1) ∈ (file count).names :=
      mem_names.mpr (Nat.lt_of_le_of_lt (Nat.sub_le k 1) (List.mem_range.mp hk))
    exact ⟨_, compile_referTo hbefore _⟩
  obtain ⟨bindings, hbindings⟩ := exists_compileAll hlinks
  have hroot := compile_referTo (mem_names.mpr (Nat.sub_lt h Nat.one_pos)) (.root)
  refine ⟨bindings, hbindings, ?_⟩
  rw [DefinitionFile.compile, hbindings]
  change (do
    let root ← (referTo (name (count - 1))).compile (file count).names .root
    return (⟨bindings, root⟩ : Graph)) = _
  rw [hroot]
  rfl

variable {bindings : Bindings} {cap remaining k : Nat} {trail : Trail}

/-- A node that is only a reference projects as the reference does. -/
theorem node_reference {follow : Trail → Reference Schema → Outcome} (place : Identity)
    (target : String) :
    Projection.node follow false trail (.node place (.recursive (.slot target)) .none) =
      follow (trail.visit place) (.slot target) :=
  bind_pure _

/-- A link of the chain that was not met before leads to the one before it. -/
theorem follow_link
    (hbindings : DefinitionFile.compileAll (file count).names (file count).definitions =
      .ok bindings) (h : k < count) (fresh : .definition (name k) ∉ trail.visited) :
    Projection.follow bindings cap (remaining + 1) trail (.slot (name k)) =
      Projection.follow bindings cap remaining (trail.visit (.definition (name k)))
        (.slot (name (k - 1))) := by
  obtain ⟨schema, hbound, made⟩ := DefinitionFile.lookup_compileAll hbindings (lookup_link h)
  have hbefore : name (k - 1) ∈ (file count).names :=
    mem_names.mpr (Nat.lt_of_le_of_lt (Nat.sub_le k 1) h)
  rw [compile_referTo hbefore] at made
  cases made
  have notContained : ¬ trail.contains (.definition (name k)) = true := by
    simpa [Trail.contains] using fresh
  simp only [Projection.follow, Reference.resolve, hbound]
  exact (if_neg notContained).trans (node_reference _ _)

/-- From a link of the chain on, each reference uses up some of the cap before the end is met. -/
theorem follow_eq_error
    (hbindings : DefinitionFile.compileAll (file count).names (file count).definitions =
      .ok bindings) (h : k < count) (fresh : ∀ i ≤ k, .definition (name i) ∉ trail.visited) :
    Projection.follow bindings cap (k + 1) trail (.slot (name k)) =
      .error (.depthExceeded cap trail.location) := by
  induction k generalizing trail with
  | zero =>
    rw [follow_link hbindings h (fresh 0 (le_refl 0))]
    rfl
  | succ k ih =>
    rw [follow_link hbindings h (fresh (k + 1) (le_refl _))]
    refine ih (Nat.lt_of_succ_lt h) fun i hi => ?_
    have hne : name i ≠ name (k + 1) := fun heq => by
      have := name_injective heq
      omega
    simp [hne, fresh i (Nat.le_succ_of_le hi)]

/-- A cap that is the number of definitions is one too small for a chain. -/
theorem project_eq_error (h : 0 < count) :
    ∃ graph, (file count).compile = .ok graph ∧
      graph.project ⟨count, false⟩ = .error (.depthExceeded count []) := by
  obtain ⟨bindings, hbindings, hcompile⟩ := exists_compile h
  refine ⟨_, hcompile, ?_⟩
  obtain ⟨last, rfl⟩ : ∃ last, count = last + 1 := ⟨count - 1, by omega⟩
  rw [Graph.project_eq_error_iff, Projection.document, node_reference]
  exact follow_eq_error hbindings (Nat.lt_succ_self last) fun i _ => by simp [Trail.start]

end Chain

end SchemaDoc
