import SchemaDoc.Proofs.Definition.References
import SchemaDoc.Proofs.Double.Exact
import SchemaDoc.Proofs.Projection.IntegerEnumerations

/-!
# Integer literals of files

A literal is kept as a floating point number and written as an integer again. The signed integers
of 64 bits that are floating point numbers come back as they were: wherever the traversal of a
file's graph meets such a literal the document enumerates it, and where it meets a union of them the
document enumerates them in their order. Other integers are rounded or not written as integers, and
a hint may still be written over an enumeration.
-/
namespace SchemaDoc

namespace Definition

variable {names : List String} {place : Identity} {definition : Definition} {schema : Schema}

/-- The definition is of a literal with this value. -/
def IsInteger (definition : Definition) (n : Int) : Prop :=
  definition.form = .literal (.number (.integer n))

theorem IsInteger.shows {n : Int} (h : definition.IsInteger n) (exact : Number.Exact n)
    (made : definition.compile names place = .ok schema) : schema.Shows n := by
  obtain ⟨x, rounded, written⟩ := exact.literal
  refine ⟨.number (.finite x), ?_, x, rfl, written⟩
  rw [literal?_of_compile made, literal?, h]
  change (literalOf (.number (.integer n))).toOption = _
  rw [literalOf, rounded]
  rfl

/-- A union of literals is compiled to a union of literals of the same integers. -/
theorem exists_members_of_union {members : List Definition} {ns : List Int}
    (hform : definition.form = .union members) (h : List.Forall₂ IsInteger members ns)
    (exact : ∀ n ∈ ns, Number.Exact n) (made : definition.compile names place = .ok schema) :
    ∃ members', members' ≠ [] ∧ schema.shape = .union members' ∧
      List.Forall₂ Schema.Shows members' ns := by
  obtain ⟨shape, hshape, rfl⟩ := compile_eq_ok made
  rw [hform, compileForm] at hshape
  obtain ⟨members', hmembers, hshape⟩ := bind_eq_ok.mp hshape
  split at hshape
  · cases hshape
  · next nonempty =>
    cases hshape
    refine ⟨members', by simpa using nonempty, rfl, ?_⟩
    refine (forall₂_of_common (compileMembers_eq_ok hmembers) (forall₂_mem_both h)).imp ?_
    rintro member' n ⟨member, -, ⟨i, hmade⟩, ⟨-, integer⟩, hn⟩
    exact IsInteger.shows integer (exact n hn) hmade

/-- The fields of a struct that was compiled have different names. -/
theorem nodup_of_compile {fields : List (Field Schema)} {index : Option Schema}
    (made : definition.compile names place = .ok schema)
    (hshape : schema.shape = .struct fields index) : (fields.map Field.name).Nodup := by
  obtain ⟨shape, compiled, rfl⟩ := compile_eq_ok made
  obtain rfl : shape = .struct fields index := hshape
  generalize definition.form = form at compiled
  cases form with
  | struct written others =>
    obtain ⟨made, -, compiled⟩ := bind_eq_ok.mp compiled
    obtain ⟨index', -, compiled⟩ := bind_eq_ok.mp compiled
    split at compiled
    · cases compiled
    · next different =>
      cases compiled
      exact (Schema.firstRepeated_eq_none_iff.mp different).1
  | _ => cases formCompiles_of_ok compiled

end Definition

namespace DefinitionFile

variable {file : DefinitionFile} {graph : Graph} {schema : Schema}

/-- What is reached from the root stands in the graph, since references lead to bound nodes. -/
theorem holds_of_reachable (compiled : file.compile = .ok graph)
    (reached : Reachable graph.bindings graph.root schema) : graph.Holds schema := by
  induction reached with
  | refl => exact .inl .refl
  | tail _ step ih =>
    cases step with
    | part part =>
      rcases ih with within | ⟨bound, hbound, within⟩
      · exact .inl (within.tail part)
      · exact .inr ⟨bound, hbound, within.tail part⟩
    | @target reference inner hshape resolved =>
      obtain ⟨position, -, place, made⟩ := exists_position_of_holds compiled ih
      obtain ⟨name, hname, -, rfl⟩ := Definition.ref_of_compile made hshape
      simp only [Reference.resolve] at resolved
      split at resolved
      · next target found =>
        cases resolved
        exact .inr ⟨(name, _), mem_of_lookup found, .refl⟩
      · cases resolved

theorem nodup_of_reachable (compiled : file.compile = .ok graph)
    (reached : Reachable graph.bindings graph.root schema) {fields : List (Field Schema)}
    {index : Option Schema} (hshape : schema.shape = .struct fields index) :
    (fields.map Field.name).Nodup := by
  obtain ⟨position, -, place, made⟩ :=
    exists_position_of_holds compiled (holds_of_reachable compiled reached)
  exact Definition.nodup_of_compile made hshape

variable {options : ProjectionOptions} {document : Members} {visit : Visit}

/-- What a node shows that the traversal meets is shown by the document of the graph. -/
theorem showsNumbers_of_meets (compiled : file.compile = .ok graph)
    (projected : graph.project options = .ok document) (met : graph.Meets visit)
    (leaves : visit.LeavesEnumerations) (occupied : visit.schema.isVoid = false)
    {good : List Number → Prop}
    (shown : ∀ follow inField trail document,
      Projection.node follow inField trail visit.schema = .ok document →
        (Json.object document).ShowsNumbers good)
    (enumerated : ∀ members inField location document, visit.InUnion members →
      Alternatives.literalEnum location ((members.filter (Projection.counts inField members)).map
        Schema.literal?) = .ok (some document) → (Json.object document).ShowsNumbers good) :
    (Json.object document).ShowsNumbers good := by
  rw [Graph.project_eq] at projected
  obtain ⟨inner, hinner, projected⟩ := bind_eq_ok.mp projected
  cases projected
  apply options.showsNumbers_headed (Projection.nodup_names_of_node hinner)
  exact Projection.showsNumbers_of_steps met occupied leaves
    (fun _ reached _ _ => nodup_of_reachable compiled reached) shown enumerated .start hinner

/-- Literals of integers that are floating point numbers come back as they were. Each is enumerated
alone, or among the members of the union that it stands in; a union of different ones is the
enumeration of them in order. -/
theorem integers_come_back (compiled : file.compile = .ok graph)
    (projected : graph.project options = .ok document) (met : graph.Meets visit)
    (leaves : visit.LeavesEnumerations) {definition : Definition} {place : Identity}
    (made : definition.compile file.names place = .ok visit.schema) :
    (∀ n, Number.Exact n → definition.IsInteger n →
      (∀ follow inField trail, ∃ shown,
        Projection.node follow inField trail visit.schema = .ok shown ∧
          shown.EnumeratesNumbers [.integer n]) ∧
      (Json.object document).ShowsNumbers fun numbers =>
        numbers = [.integer n] ∨ .integer n ∈ numbers ∧ ∃ members, visit.InUnion members) ∧
    ∀ members ns, definition.form = .union members →
      List.Forall₂ Definition.IsInteger members ns → (∀ n ∈ ns, Number.Exact n) → ns.Nodup →
      (∀ follow inField trail, ∃ shown,
        Projection.node follow inField trail visit.schema = .ok shown ∧
          shown.EnumeratesNumbers (ns.map .integer)) ∧
      (Json.object document).ShowsNumbers (· = ns.map .integer) := by
  constructor
  · intro n exact integer
    have shows := integer.shows exact made
    refine ⟨fun _ _ _ => Projection.exists_node_of_shows shows, ?_⟩
    apply showsNumbers_of_meets compiled projected met leaves shows.isVoid_eq_false
    · intro follow inField trail document h
      obtain ⟨shown, hshown, enumerates⟩ := Projection.exists_node_of_shows shows
      cases h.symm.trans hshown
      exact ⟨document, _, .root, enumerates, .inl rfl⟩
    · intro members inField location document inside found
      obtain ⟨literal, hliteral, x, rfl, written⟩ := shows
      have counted : visit.schema ∈ members.filter (Projection.counts inField members) :=
        Projection.mem_filter_counts inside.mem
          (Schema.Shows.isVoid_eq_false ⟨_, hliteral, x, rfl, written⟩)
      obtain ⟨numbers, enumerates, mem⟩ := Alternatives.enumeratesNumbers_of_literalEnum found
        (List.mem_map.mpr ⟨_, counted, hliteral⟩)
      exact ⟨document, numbers, .root, enumerates, .inr ⟨written ▸ mem, members, inside⟩⟩
  · intro members ns hform integers exact different
    obtain ⟨members', nonempty, hshape, shows⟩ :=
      Definition.exists_members_of_union hform integers exact made
    refine ⟨fun _ _ _ =>
      Projection.exists_node_union_of_shows hshape shows nonempty different, ?_⟩
    have occupied : visit.schema.isVoid = false := by rw [Schema.isVoid, hshape]
    apply showsNumbers_of_meets compiled projected met leaves occupied
    · intro follow inField trail document h
      obtain ⟨shown, hshown, enumerates⟩ :=
        Projection.exists_node_union_of_shows hshape shows nonempty different
      cases h.symm.trans hshown
      exact ⟨document, _, .root, enumerates, rfl⟩
    · intro others inField location document inside found
      -- Members of an enumeration are literals, and a union is none.
      obtain ⟨literal, _, hliteral, -⟩ := Alternatives.literalEnum_eq_some found _
        (List.mem_map_of_mem (Projection.mem_filter_counts inside.mem occupied))
      rw [Projection.shape_eq_of_literal? hliteral] at hshape
      cases hshape

/-! ## A file of levels -/

def ofInteger (n : Int) : Definition := .mk (.literal (.number (.integer n))) .none

/-- The least level is the least integer of 64 bits, and the other one has more than 53 bits. -/
def levels : DefinitionFile where
  definitions := [("Level", .mk (.union [ofInteger (-9223372036854775808),
    ofInteger 9007199254740994]) ⟨some "Levels", none, []⟩)]
  root := .mk (.struct [⟨"level", .mk (.ref "Level") .none, false⟩,
    ⟨"limit", ofInteger 9223372036854774784, true⟩] none) .none

theorem exact_levels : Number.Exact (-9223372036854775808) ∧ Number.Exact 9007199254740994 ∧
    Number.Exact 9223372036854774784 := by
  refine ⟨⟨by decide, by decide, ⟨true, 2 ^ 52, 11, by decide⟩, ?_⟩,
    ⟨by decide, by decide, ⟨false, 2 ^ 52 + 1, 1, by decide⟩, ?_⟩,
    ⟨by decide, by decide, ⟨false, 2 ^ 53 - 1, 10, by decide⟩, ?_⟩⟩
  · norm_num [Double.value, Double.magnitude]
  · norm_num [Double.value, Double.magnitude]
  · norm_num [Double.value, Double.magnitude]

/-- The node of a literal. -/
def integerNode (place : Identity) (n : Int) : Schema :=
  .make place (.literal (.number (.ofInt n)))

def levelNode : Schema :=
  .node (.definition "Level") (.union [integerNode (.part (.definition "Level") 0)
    (-9223372036854775808), integerNode (.part (.definition "Level") 1) 9007199254740994])
    ⟨some "Levels", none, []⟩

def levelReference : Schema := .make (.part .root 0) (.recursive (.slot "Level"))

def levelGraph : Graph where
  bindings := [("Level", levelNode)]
  root := .make .root (.struct [⟨"level", levelReference, false⟩,
    ⟨"limit", integerNode (.part .root 1) 9223372036854774784, true⟩] none)

/-- The traversal goes through the reference to the union of the levels. -/
theorem levelGraph_meets_level :
    levelGraph.Meets ⟨[levelReference, levelGraph.root], levelNode⟩ := by
  refine .tail (.single (.part (.field List.mem_cons_self))) (.target rfl rfl ?_)
  rintro ⟨node, mem, same, -⟩
  rcases List.mem_cons.mp mem with rfl | mem
  · cases same
  · obtain rfl := List.mem_singleton.mp mem
    cases same

theorem levelGraph_meets_limit :
    levelGraph.Meets ⟨[levelGraph.root], integerNode (.part .root 1) 9223372036854774784⟩ :=
  .single (.part (.field (List.mem_cons_of_mem _ List.mem_cons_self)))

theorem integers_come_back_levels : levels.compile = .ok levelGraph ∧
    ∃ document, levelGraph.project .standard = .ok document ∧
      (Json.object document).ShowsNumbers (· = [.integer (-9223372036854775808),
        .integer 9007199254740994]) ∧
      (Json.object document).ShowsNumbers (· = [.integer 9223372036854774784]) := by
  have compiled : levels.compile = .ok levelGraph := rfl
  obtain ⟨document, projected⟩ : ∃ document, levelGraph.project .standard = .ok document :=
    ⟨_, rfl⟩
  obtain ⟨least, other, limit⟩ := exact_levels
  have unrefined : ∀ schema ∈ [levelReference, levelGraph.root], ∀ base constraints,
      schema.shape ≠ .refinement base constraints := by
    intro schema mem base constraints refined
    rcases List.mem_cons.mp mem with rfl | mem
    · cases refined
    · obtain rfl := List.mem_singleton.mp mem
      cases refined
  have union : (Definition.mk (.union [ofInteger (-9223372036854775808),
      ofInteger 9007199254740994]) ⟨some "Levels", none, []⟩).compile levels.names
        (.definition "Level") = .ok levelNode := rfl
  have literal : (ofInteger 9223372036854774784).compile levels.names (.part .root 1) =
      .ok (integerNode (.part .root 1) 9223372036854774784) := rfl
  refine ⟨compiled, document, projected, ?_, ?_⟩
  · have shown := (integers_come_back compiled projected levelGraph_meets_level
      (fun schema mem base constraints refined => absurd refined (unrefined schema mem _ _))
      union).2 _ [-9223372036854775808, 9007199254740994] rfl (.cons rfl (.cons rfl .nil))
      (by simp [least, other]) (by decide)
    exact shown.2
  · have shown := (integers_come_back compiled projected levelGraph_meets_limit
      (fun schema mem base constraints refined =>
        absurd refined (unrefined schema (List.mem_cons_of_mem _ mem) _ _)) literal).1 _ limit rfl
    obtain ⟨document, numbers, reached, enumerates, good⟩ := shown.2
    rcases good with alone | ⟨-, members, ⟨union, above, inside⟩, -⟩
    · exact ⟨document, numbers, reached, enumerates, alone⟩
    · cases above
      cases inside

/-! ## Integers that are lost -/

/-- A literal with a hint for another enumeration. -/
def overwritten : DefinitionFile where
  definitions := []
  root := .mk (.refinement (ofInteger 5) [⟨"other", [("enum", .array [.ofNat 6])]⟩]) .none

/-- The first odd integer of more than 53 bits is rounded, and no longer differs from the one before
it; an integer past the signed ones of 64 bits is not written as one; and a hint replaces a
literal. -/
theorem integers_lost :
    (∃ graph document, (DefinitionFile.mk [] (ofInteger 9007199254740993)).compile = .ok graph ∧
      graph.project .standard = .ok document ∧
      ¬ (Json.object document).ShowsNumbers (.integer 9007199254740993 ∈ ·)) ∧
    (∃ graph document, (DefinitionFile.mk [] (.mk (.union [ofInteger 9007199254740992,
        ofInteger 9007199254740993]) .none)).compile = .ok graph ∧
      graph.project .standard = .ok document ∧
      ¬ (Json.object document).ShowsNumbers
        (· = [.integer 9007199254740992, .integer 9007199254740993])) ∧
    (∃ graph document, (DefinitionFile.mk [] (ofInteger 9223372036854777856)).compile = .ok graph ∧
      graph.project .standard = .ok document ∧
      ¬ (Json.object document).ShowsNumbers (.integer 9223372036854777856 ∈ ·)) ∧
    ∃ graph document, overwritten.compile = .ok graph ∧ graph.project .standard = .ok document ∧
      ¬ (Json.object document).ShowsNumbers (.integer 5 ∈ ·) := by
  open Alternatives in
  refine ⟨⟨_, ofNumbers [.integer 9007199254740992], rfl, rfl, fun shown => ?_⟩,
    ⟨_, ofNumbers [.integer 9007199254740992], rfl, rfl, fun shown => ?_⟩,
    ⟨_, ofNumbers [.float ⟨false, 2 ^ 52 + 1, 11, by decide⟩], rfl, rfl, fun shown => ?_⟩,
    ⟨_, ofNumbers [.integer 6], rfl, rfl, fun shown => ?_⟩⟩
  · exact absurd (showsNumbers_ofNumbers_iff.mp shown) (by decide)
  · exact absurd (showsNumbers_ofNumbers_iff.mp shown) (by decide)
  · exact absurd (showsNumbers_ofNumbers_iff.mp shown) (by decide)
  · exact absurd (showsNumbers_ofNumbers_iff.mp shown) (by decide)

end DefinitionFile

end SchemaDoc
