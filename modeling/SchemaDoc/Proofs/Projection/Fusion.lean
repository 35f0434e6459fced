import SchemaDoc.Proofs.Projection.HintSurvival
import SchemaDoc.Proofs.Projection.Relocation

/-!
# Stacked refinements fuse

Refinements on top of one another write over one document, the innermost first, and are no obstacle
to each other on the way to their base. So a stack of them can be replaced by a single refinement
with all their constraints in this order. Each member of the document has the value of the last
write to it, in the place of the first one.
-/
namespace SchemaDoc

namespace RefinementLayer

/-- What a hint writes: a numeric exclusive bound is a bound and a flag, anything else is itself. -/
def written : String × Json → Members
  | ("exclusiveMinimum", .number bound) =>
    [("minimum", .number bound), ("exclusiveMinimum", .bool true)]
  | ("exclusiveMaximum", .number bound) =>
    [("maximum", .number bound), ("exclusiveMaximum", .bool true)]
  | hint => [hint]

/-- Everything that a stack of refinements writes, in order. -/
def writes (layers : List RefinementLayer) : Members := (hints layers).flatMap written

theorem written_eq (hint : String × Json) : written hint = Constraint.writes hint.1 hint.2 := by
  obtain ⟨name, value⟩ := hint
  unfold written Constraint.writes
  split
  · next same =>
    cases same
    rfl
  · next same =>
    cases same
    rfl
  · next notLower notUpper =>
    cases value with
    | number bound =>
      have lower : name ≠ "exclusiveMinimum" := fun same => notLower bound (same ▸ rfl)
      have upper : name ≠ "exclusiveMaximum" := fun same => notUpper bound (same ▸ rfl)
      simp [lower, upper]
    | _ => rfl

theorem writes_eq (layers : List RefinementLayer) :
    writes layers = (hints layers).flatMap fun hint => Constraint.writes hint.1 hint.2 := by
  rw [writes, funext written_eq]

theorem hints_append (inner outer : List RefinementLayer) :
    hints (inner ++ outer) = hints inner ++ hints outer :=
  List.flatMap_append

end RefinementLayer

namespace Trail

theorem within_visited (trail : Trail) (layers : List RefinementLayer) :
    (trail.within layers).visited = layers.map RefinementLayer.identity ++ trail.visited := by
  induction layers with
  | nil => rfl
  | cons layer outer ih => rw [within, visit_visited, ih, List.map_cons, List.cons_append]

theorem within_location (trail : Trail) (layers : List RefinementLayer) :
    (trail.within layers).location = trail.location := by
  induction layers with
  | nil => rfl
  | cons layer outer ih => exact ih

end Trail

/-- A schema under a stack of refinements of which only the outermost one has annotations. -/
def Schema.stacked (base : Schema) (inner : List RefinementLayer) (outer : RefinementLayer)
    (notes : Annotations) : Schema :=
  .node outer.identity (.refinement (base.refined inner) outer.constraints) notes

namespace Projection

variable {bindings : Bindings} {base : Schema}

/-- A stack of refinements writes over the document that its base has by itself. -/
theorem node_stacked {inner : List RefinementLayer} {outer : RefinementLayer}
    (avoids : base.Avoids bindings ((inner ++ [outer]).map RefinementLayer.identity))
    (notes : Annotations) (cap remaining : Nat) (inField : Bool) (trail : Trail) :
    node (follow bindings cap remaining) inField trail (base.stacked inner outer notes) = do
      let own ← node (follow bindings cap remaining) false trail base
      return notes.overlay (own.putAll (RefinementLayer.writes (inner ++ [outer]))) := by
  have visited : ((trail.visit outer.identity).within inner).visited =
      (inner ++ [outer]).map RefinementLayer.identity ++ trail.visited := by
    rw [Trail.within_visited, Trail.visit_visited]
    simp
  have placed : ((trail.visit outer.identity).within inner).location = trail.location :=
    Trail.within_location _ inner
  rw [Schema.stacked, node_refinement, node_refined, bind_assoc,
    node_eq_of_avoids avoids placed visited]
  refine bind_congr fun own => ?_
  rw [pure_bind, Constraint.applyAll_eq_putAll, ← Members.putAll_append, ← List.flatMap_append,
    RefinementLayer.writes_eq, RefinementLayer.hints_append]
  simp [RefinementLayer.hints]

/-- Wherever a stack of refinements is projected, it gives the same as a single refinement with all
its constraints, as long as its base does not lead back to any of them: the error of the base, or
its document with the last write to each name, in the order of the first writes. -/
theorem refinements_fuse (inner : List RefinementLayer) (outer : RefinementLayer)
    (single : Identity) (notes : Annotations)
    (avoids : base.Avoids bindings (single :: (inner ++ [outer]).map RefinementLayer.identity))
    (cap remaining : Nat) (inField : Bool) (trail : Trail) :
    node (follow bindings cap remaining) inField trail (base.stacked inner outer notes) =
      node (follow bindings cap remaining) inField trail
        (.node single (.refinement base ((inner ++ [outer]).flatMap RefinementLayer.constraints))
          notes) ∧
    (∀ error, node (follow bindings cap remaining) false trail base = .error error →
      node (follow bindings cap remaining) inField trail (base.stacked inner outer notes) =
        .error error) ∧
    ∀ own, node (follow bindings cap remaining) false trail base = .ok own → ∃ document,
      node (follow bindings cap remaining) inField trail (base.stacked inner outer notes) =
        .ok (notes.overlay document) ∧
      document.names = own.names ++
        ((RefinementLayer.writes (inner ++ [outer])).names.filter (· ∉ own.names)).eraseDups ∧
      ∀ key, document.get? key =
        ((RefinementLayer.writes (inner ++ [outer])).reverse.lookup key).or (own.get? key) := by
  have stack := node_stacked (avoids.mono (List.subset_cons_self _ _)) notes cap remaining inField
    trail
  refine ⟨?_, ?_, ?_⟩
  · let layer : RefinementLayer :=
      ⟨single, (inner ++ [outer]).flatMap RefinementLayer.constraints⟩
    have alone : base.Avoids bindings (([] ++ [layer]).map RefinementLayer.identity) :=
      avoids.mono (by simp [layer])
    have same : RefinementLayer.writes ([] ++ [layer]) =
        RefinementLayer.writes (inner ++ [outer]) := by
      simp [RefinementLayer.writes, RefinementLayer.hints, layer, List.flatMap_assoc]
    rw [stack, ← same]
    exact (node_stacked alone notes cap remaining inField trail).symm
  · intro error failed
    rw [stack, failed]
    rfl
  · intro own h
    refine ⟨own.putAll (RefinementLayer.writes (inner ++ [outer])), ?_,
      Members.names_putAll own _, Members.get?_putAll_eq own _⟩
    rw [stack, h]
    rfl

/-! ## An amount with three bounds -/

def amount : Schema := .make (.step 1) (.primitive .number)

def amountReference : Schema := .make (.step 2) (.recursive (.slot "amount"))

def amounts : Bindings := [("amount", amount)]

/-- The bounds of the two inner refinements, of which the second one covers the first. -/
def innerBounds : List RefinementLayer :=
  [⟨.step 3, [.single "greaterThanOrEqualTo" "minimum" (.ofNat 5)]⟩,
    ⟨.step 4, [.single "greaterThan" "exclusiveMinimum" (.ofNat 3), .maxLength 9]⟩]

def outerBound : RefinementLayer :=
  ⟨.step 5, [.single "lessThan" "exclusiveMaximum" (.ofNat 8),
    .single "greaterThanOrEqualTo" "minimum" (.ofNat 4)]⟩

def titledAmount : Annotations := { Annotations.none with title := some "Amount due" }

theorem amountReference_avoids : amountReference.Avoids amounts
    (.step 6 :: (innerBounds ++ [outerBound]).map RefinementLayer.identity) := by
  refine Schema.avoids_of_closed [amountReference, amount] ?_ ?_ ?_ List.mem_cons_self
  · simp [amountReference, amount, Schema.make, Schema.shape, Shape.parts]
  · simp [amountReference, amount, amounts, Schema.make, Schema.shape, Reference.resolve]
  · simp [amountReference, amount, innerBounds, outerBound, Schema.make, Schema.identity]

theorem refinements_fuse_amount :
    amountReference.Avoids amounts
        (.step 6 :: (innerBounds ++ [outerBound]).map RefinementLayer.identity) ∧
      node (follow amounts 10 10) true .start
          (amountReference.stacked innerBounds outerBound titledAmount) =
        node (follow amounts 10 10) true .start (.node (.step 6) (.refinement amountReference
          ((innerBounds ++ [outerBound]).flatMap RefinementLayer.constraints)) titledAmount) ∧
      ∃ document, node (follow amounts 10 10) true .start
          (amountReference.stacked innerBounds outerBound titledAmount) =
            .ok (titledAmount.overlay document) ∧
        document.names = ["type", "minimum", "exclusiveMinimum", "maxLength", "maximum",
          "exclusiveMaximum"] ∧
        document.get? "minimum" = some (.ofNat 4) := by
  obtain ⟨same, -, made⟩ := refinements_fuse innerBounds outerBound (.step 6) titledAmount
    amountReference_avoids 10 10 true .start
  obtain ⟨document, hdocument, names, values⟩ := made [("type", .string "number")] rfl
  exact ⟨amountReference_avoids, same, document, hdocument, names, values "minimum"⟩

end Projection

end SchemaDoc
