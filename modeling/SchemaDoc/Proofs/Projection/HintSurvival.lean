import Mathlib.Data.List.Nodup
import SchemaDoc.Proofs.Json.Members
import SchemaDoc.Proofs.Projection.Traversal

/-!
# Which hints of stacked refinements survive

A stack of refinements projects to the document of its base with the hints of all constraints
written over it, innermost first. Hints with different names can still meet: a numeric exclusive
bound is written under the name of the inclusive bound too. So hints with distinct names all
survive exactly if no inclusive bound differs from an exclusive bound on its side; with
`minimum` 5 under `exclusiveMinimum` 3 the document says 3, and the inclusive bound is lost.
-/
namespace SchemaDoc

/-- A refinement without the schema that it refines. -/
structure RefinementLayer where
  identity : Identity
  constraints : List Constraint

namespace RefinementLayer

/-- The hints of a stack of refinements in the order of writing, the innermost refinement first. -/
def hints (layers : List RefinementLayer) : Members :=
  layers.flatMap fun layer => layer.constraints.flatMap Constraint.hints

end RefinementLayer

/-- A schema under a stack of refinements without annotations, the innermost first. -/
def Schema.refined (base : Schema) : List RefinementLayer → Schema
  | [] => base
  | layer :: outer => (Schema.refine layer.identity base layer.constraints).refined outer

/-- The trail to what a stack of refinements is on. -/
def Trail.within (trail : Trail) : List RefinementLayer → Trail
  | [] => trail
  | layer :: outer => (trail.within outer).visit layer.identity

/-- What a document says of a hint that survives in it. -/
def Members.Shows (document : Members) (name : String) (value : Json) : Prop :=
  match value with
  | .number _ =>
    if name = "exclusiveMinimum" then
      document.get? "minimum" = some value ∧ document.get? "exclusiveMinimum" = some (.bool true)
    else if name = "exclusiveMaximum" then
      document.get? "maximum" = some value ∧ document.get? "exclusiveMaximum" = some (.bool true)
    else document.get? name = some value
  | value => document.get? name = some value

/-- An inclusive bound is the same as an exclusive bound on its side. -/
structure RefinementLayer.BoundsAgree (hints : Members) : Prop where
  lower : ∀ bound value, ("exclusiveMinimum", .number bound) ∈ hints →
    ("minimum", value) ∈ hints → value = .number bound
  upper : ∀ bound value, ("exclusiveMaximum", .number bound) ∈ hints →
    ("maximum", value) ∈ hints → value = .number bound

namespace Constraint

variable {name : String} {value : Json} {write first second : String × Json} {hints : Members}

/-! ## The writes of one hint -/

theorem shows_iff (document : Members) (name : String) (value : Json) :
    document.Shows name value ↔
      ∀ write ∈ writes name value, document.get? write.1 = some write.2 := by
  unfold Members.Shows writes
  cases value with
  | number =>
    simp only
    split
    · simp
    · split <;> simp
  | _ => simp

theorem mem_writes (h : write ∈ writes name value) :
    write = (name, value) ∨
    (∃ bound, name = "exclusiveMinimum" ∧ value = .number bound ∧
      (write = ("minimum", value) ∨ write = ("exclusiveMinimum", .bool true))) ∨
    (∃ bound, name = "exclusiveMaximum" ∧ value = .number bound ∧
      (write = ("maximum", value) ∨ write = ("exclusiveMaximum", .bool true))) := by
  unfold writes at h
  split at h
  · next bound =>
    split at h
    · next hname =>
      simp only [List.mem_cons, List.not_mem_nil, or_false] at h
      exact .inr (.inl ⟨bound, hname, rfl, h⟩)
    · split at h
      · next hname =>
        simp only [List.mem_cons, List.not_mem_nil, or_false] at h
        exact .inr (.inr ⟨bound, hname, rfl, h⟩)
      · exact .inl (List.mem_singleton.mp h)
  · exact .inl (List.mem_singleton.mp h)

/-- A hint that is no exclusive bound is written as it is. -/
theorem writes_of_ne (hmin : name ≠ "exclusiveMinimum") (hmax : name ≠ "exclusiveMaximum") :
    writes name value = [(name, value)] := by
  unfold writes
  cases value with
  | number => simp [hmin, hmax]
  | _ => rfl

theorem nodup_writes (name : String) (value : Json) : (writes name value).names.Nodup := by
  unfold writes Members.names
  split
  · split
    · simp
    · split <;> simp
  · simp

/-! ## The writes of several hints -/

/-- A write under the name of its hint carries the value of a hint of another name only if both
are bounds of one side. -/
theorem write_agrees (agree : RefinementLayer.BoundsAgree hints)
    {hint other : String × Json} (hhint : hint ∈ hints) (hother : other ∈ hints)
    (hne : hint.1 ≠ other.1) (hfirst : first = hint) (hsecond : second ∈ writes other.1 other.2)
    (same : first.1 = second.1) : first.2 = second.2 := by
  subst hfirst
  obtain ⟨name, value⟩ := first
  obtain ⟨otherName, otherValue⟩ := other
  rcases mem_writes hsecond with rfl | ⟨bound, rfl, rfl, rfl | rfl⟩ | ⟨bound, rfl, rfl, rfl | rfl⟩
  · exact absurd same hne
  · cases same
    exact agree.lower bound value hother hhint
  · exact absurd same hne
  · cases same
    exact agree.upper bound value hother hhint
  · exact absurd same hne

theorem writes_agree (hnodup : hints.names.Nodup) (agree : RefinementLayer.BoundsAgree hints)
    (hfirst : first ∈ hints.flatMap fun hint => writes hint.1 hint.2)
    (hsecond : second ∈ hints.flatMap fun hint => writes hint.1 hint.2)
    (same : first.1 = second.1) : first.2 = second.2 := by
  obtain ⟨hint, hhint, hfirst⟩ := List.mem_flatMap.mp hfirst
  obtain ⟨other, hother, hsecond⟩ := List.mem_flatMap.mp hsecond
  by_cases hname : hint.1 = other.1
  · have hsame : hint = other := List.inj_on_of_nodup_map hnodup hhint hother hname
    subst hsame
    have hwrite : first = second :=
      List.inj_on_of_nodup_map (nodup_writes hint.1 hint.2) hfirst hsecond same
    exact congrArg Prod.snd hwrite
  · rcases mem_writes hfirst with hplain | ⟨_, hlower, _, hwrite⟩ | ⟨_, hupper, _, hwrite⟩
    · exact write_agrees agree hhint hother hname hplain hsecond same
    -- Both bounds of a side have the same name, and those of different sides write different names.
    · rcases mem_writes hsecond with hplain | ⟨_, hother', _, _⟩ | ⟨_, _, _, hwrite'⟩
      · exact (write_agrees agree hother hhint (Ne.symm hname) hplain hfirst same.symm).symm
      · exact absurd (hlower.trans hother'.symm) hname
      · rcases hwrite with rfl | rfl <;> rcases hwrite' with rfl | rfl <;> simp at same
    · rcases mem_writes hsecond with hplain | ⟨_, _, _, hwrite'⟩ | ⟨_, hother', _, _⟩
      · exact (write_agrees agree hother hhint (Ne.symm hname) hplain hfirst same.symm).symm
      · rcases hwrite with rfl | rfl <;> rcases hwrite' with rfl | rfl <;> simp at same
      · exact absurd (hupper.trans hother'.symm) hname

/-- Hints that are all shown write no name with two values. -/
theorem eq_of_shown {document : Members} (shown : ∀ hint ∈ hints, document.Shows hint.1 hint.2)
    {one other : String × Json} (hone : one ∈ hints) (hother : other ∈ hints) {key : String}
    {value value' : Json} (hvalue : (key, value) ∈ writes one.1 one.2)
    (hvalue' : (key, value') ∈ writes other.1 other.2) : value = value' := by
  have hget := (shows_iff document one.1 one.2).mp (shown one hone) (key, value) hvalue
  have hget' := (shows_iff document other.1 other.2).mp (shown other hother) (key, value') hvalue'
  exact Option.some.inj (hget.symm.trans hget')

/-- Hints with distinct names are all shown by a document they are written over exactly if the
bounds among them agree. -/
theorem shows_putAll_iff (hnodup : hints.names.Nodup) (document : Members) :
    (∀ hint ∈ hints,
      (document.putAll (hints.flatMap fun hint => writes hint.1 hint.2)).Shows hint.1 hint.2) ↔
    RefinementLayer.BoundsAgree hints := by
  constructor
  · intro shown
    constructor
    · intro bound value hexclusive hinclusive
      have hbound : ("minimum", .number bound) ∈ writes "exclusiveMinimum" (.number bound) := by
        simp [writes]
      have hvalue : ("minimum", value) ∈ writes "minimum" value := by
        simp [writes_of_ne]
      exact eq_of_shown shown hinclusive hexclusive hvalue hbound
    · intro bound value hexclusive hinclusive
      have hbound : ("maximum", .number bound) ∈ writes "exclusiveMaximum" (.number bound) := by
        simp [writes]
      have hvalue : ("maximum", value) ∈ writes "maximum" value := by
        simp [writes_of_ne]
      exact eq_of_shown shown hinclusive hexclusive hvalue hbound
  · intro agree hint hhint
    rw [shows_iff]
    intro write hwrite
    have hmem : write ∈ hints.flatMap fun hint => writes hint.1 hint.2 :=
      List.mem_flatMap.mpr ⟨hint, hhint, hwrite⟩
    exact Members.get?_putAll_of_agree
      (fun first hfirst second hsecond => writes_agree hnodup agree hfirst hsecond) hmem document

theorem applyAll_eq_putAll (document : Members) (constraints : List Constraint) :
    applyAll document constraints =
      document.putAll ((constraints.flatMap Constraint.hints).flatMap fun hint =>
        writes hint.1 hint.2) := by
  induction constraints generalizing document with
  | nil => rfl
  | cons constraint rest ih =>
    have hstep : applyAll document (constraint :: rest) =
        applyAll (apply document constraint) rest := rfl
    rw [hstep, ih, List.flatMap_cons, List.flatMap_append, Members.putAll_append]
    rfl

/-- Hints leave alone the names that they do not have and that no exclusive bound is written to. -/
theorem get?_applyAll_of_ne {constraints : List Constraint} {name : String}
    (hints : ∀ constraint ∈ constraints, ∀ hint ∈ constraint.hints, hint.1 ≠ name)
    (bound : name ∉ ["minimum", "exclusiveMinimum", "maximum", "exclusiveMaximum"])
    (document : Members) : (applyAll document constraints).get? name = document.get? name := by
  rw [applyAll_eq_putAll]
  apply Members.get?_putAll_of_not_mem
  intro write mem same
  obtain ⟨hint, hhint, hwrite⟩ := List.mem_flatMap.mp mem
  obtain ⟨constraint, hconstraint, hhint⟩ := List.mem_flatMap.mp hhint
  rw [← same] at bound
  rcases mem_writes hwrite with rfl | ⟨_, -, -, rfl | rfl⟩ | ⟨_, -, -, rfl | rfl⟩
  · exact hints constraint hconstraint _ hhint same
  · simp at bound
  · simp at bound
  · simp at bound
  · simp at bound

end Constraint

namespace Projection

variable {follow : Trail → Reference Schema → Outcome} {trail : Trail} {base : Schema}
  {layers : List RefinementLayer} {projected : Members}

/-- The hints of a refinement are written over the document of its base, below its annotations. -/
theorem node_refinement {inField : Bool} (identity : Identity) (constraints : List Constraint)
    (notes : Annotations) :
    node follow inField trail (.node identity (.refinement base constraints) notes) = do
      let document ← node follow false (trail.visit identity) base
      return notes.overlay (Constraint.applyAll document constraints) := by
  rw [node_eq]
  change ((do
    let document ← node follow false (trail.visit identity) base
    return Constraint.applyAll document constraints) >>= fun document =>
      return notes.overlay document) = _
  simp only [bind_assoc, pure_bind]

/-- The hints of a stack of refinements are written over what its base projects to. -/
theorem node_refined (base : Schema) (layers : List RefinementLayer) :
    node follow false trail (base.refined layers) = do
      let document ← node follow false (trail.within layers) base
      return document.putAll ((RefinementLayer.hints layers).flatMap fun hint =>
        Constraint.writes hint.1 hint.2) := by
  induction layers generalizing base with
  | nil => exact (bind_pure _).symm
  | cons layer outer ih =>
    rw [Schema.refined, ih, Schema.refine, Schema.make, node_refinement, bind_assoc]
    refine bind_congr fun document => ?_
    rw [pure_bind, Annotations.overlay_none, Constraint.applyAll_eq_putAll, ← Members.putAll_append,
      ← List.flatMap_append]
    rfl

/-- Wherever a stack of refinements is projected, all its hints survive exactly if the bounds among
them agree, provided that no name is given twice. -/
theorem hints_survive_iff
    (hbase : node follow false (trail.within layers) base = .ok projected)
    (hnodup : (RefinementLayer.hints layers).names.Nodup) :
    ∃ refined, node follow false trail (base.refined layers) = .ok refined ∧
      ((∀ hint ∈ RefinementLayer.hints layers, refined.Shows hint.1 hint.2) ↔
        RefinementLayer.BoundsAgree (RefinementLayer.hints layers)) := by
  refine ⟨_, ?_, Constraint.shows_putAll_iff hnodup projected⟩
  rw [node_refined, hbase]
  rfl

/-- A number under two refinements that bound it from below in different ways. -/
def boundedTwice : List RefinementLayer :=
  [⟨.step 1, [.single "greaterThanOrEqualTo" "minimum" (.ofNat 5)]⟩,
    ⟨.step 2, [.single "greaterThan" "exclusiveMinimum" (.ofNat 3)]⟩]

def anyNumber : Schema := .make (.step 0) (.primitive .number)

theorem hints_survive_iff_boundedTwice :
    ∃ refined, document [] 10 (anyNumber.refined boundedTwice) = .ok refined ∧
      ((∀ hint ∈ RefinementLayer.hints boundedTwice, refined.Shows hint.1 hint.2) ↔
        RefinementLayer.BoundsAgree (RefinementLayer.hints boundedTwice)) := by
  have hbase : node (follow [] 10 10) false (Trail.start.within boundedTwice) anyNumber =
      .ok [("type", .string "number")] := rfl
  exact hints_survive_iff hbase (by decide)

/-- The inclusive bound is lost, although its name is given once. -/
theorem boundedTwice_loses_minimum :
    (RefinementLayer.hints boundedTwice).names.Nodup ∧
      document [] 10 anyNumber = .ok [("type", .string "number")] ∧
      ∃ refined, document [] 10 (anyNumber.refined boundedTwice) = .ok refined ∧
        ¬ ∀ hint ∈ RefinementLayer.hints boundedTwice, refined.Shows hint.1 hint.2 := by
  refine ⟨by decide, rfl, _, rfl, fun shown => ?_⟩
  have hminimum := shown ("minimum", .ofNat 5)
    (by simp [RefinementLayer.hints, boundedTwice, Constraint.single])
  have hlost : Members.get? [("type", .string "number"), ("minimum", .ofNat 3),
    ("exclusiveMinimum", .bool true)] "minimum" = some (Json.ofNat 3) := rfl
  cases hlost.symm.trans hminimum

end Projection

end SchemaDoc
