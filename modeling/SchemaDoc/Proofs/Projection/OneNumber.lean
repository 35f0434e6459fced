import SchemaDoc.Proofs.Projection.BareDocuments

/-!
# Schemas with one number that is not finite

A bare schema with exactly one infinite or undefined number is taken apart along the way to this
number. `Schema.Differ` relates it to the schema with a finite number in its place, and
`Schema.Direct` tells for which ways to the number the parts of the document are where the parts
of the schema are.
-/
namespace SchemaDoc

namespace Schema

/-- The key of a schema's document. -/
def documentKey (schema : Schema) : Option String :=
  (Projection.document [] 0 schema).toOption.map fun document => (Json.object document).key

/-- The number that is not finite is in the schema on a way along which the documents of parts stand
in the places that are told for them. This fails in three cases: a single element of a tuple does
not stand in a list; members of a union that is no enumeration are not looked at one by one as long
as they are numbers; and of like members only the first has a place. -/
inductive Direct : Bool → Schema → Prop
  | number {inField : Bool} {identity : Identity} {notes : Annotations} {x : Binary64} :
      x.finite? = none → Direct inField (.node identity (.literal (.number x)) notes)
  | field {inField : Bool} {identity : Identity} {notes : Annotations}
      {fields : List (Field Schema)} {index : Option Schema} {field : Field Schema} :
      field ∈ fields → Direct true field.node →
      Direct inField (.node identity (.struct fields index) notes)
  | index {inField : Bool} {identity : Identity} {notes : Annotations}
      {fields : List (Field Schema)} {inner : Schema} : Direct false inner →
      Direct inField (.node identity (.struct fields (some inner)) notes)
  | element {inField : Bool} {identity : Identity} {notes : Annotations}
      {elements : List (Element Schema)} {rest : Option Schema} {element : Element Schema} :
      element ∈ elements → elements.length ≠ 1 → Direct false element.node →
      Direct inField (.node identity (.tuple elements rest) notes)
  | rest {inField : Bool} {identity : Identity} {notes : Annotations}
      {elements : List (Element Schema)} {inner : Schema} : Direct false inner →
      Direct inField (.node identity (.tuple elements (some inner)) notes)
  | only {inField : Bool} {identity : Identity} {notes : Annotations} {members : List Schema}
      {member : Schema} : members.filter (Projection.counts inField members) = [member] →
      Direct false member → Direct inField (.node identity (.union members) notes)
  | numbers {inField : Bool} {identity : Identity} {notes : Annotations} {members : List Schema}
      {member : Schema} : member ∈ members.filter (Projection.counts inField members) →
      member.IsNonFinite → (∀ other ∈ members.filter (Projection.counts inField members),
        ∃ y, other.shape.number? = some y) →
      Direct inField (.node identity (.union members) notes)
  | alternative {inField : Bool} {identity : Identity} {notes : Annotations}
      {members before after : List Schema} {member : Schema} :
      members.filter (Projection.counts inField members) = before ++ member :: after →
      before ++ after ≠ [] →
      (member.shape.number? = none ∨ ∃ other ∈ before, other.shape.number? = none) →
      (before.map documentKey).Nodup → Direct false member →
      Direct inField (.node identity (.union members) notes)

/-- Bare schemas that differ in one number literal, of which one has `x` and the other `y`. All
other numbers are finite, and written otherwise than a given text. -/
inductive Differ (text : List Char) (x y : Binary64) : Schema → Schema → Prop
  | number {identity : Identity} :
      Differ text x y (.node identity (.literal (.number x)) .none)
        (.node identity (.literal (.number y)) .none)
  | field {identity : Identity} {before after : List (Field Schema)} {name : String}
      {optional : Bool} {index : Option Schema} {inner inner' : Schema} :
      ((before ++ ⟨name, inner, optional⟩ :: after).map Field.name).Nodup →
      (∀ field ∈ before ++ after, field.node.Settled text) →
      (∀ other, index = some other → other.Settled text) → Differ text x y inner inner' →
      Differ text x y
        (.node identity (.struct (before ++ ⟨name, inner, optional⟩ :: after) index) .none)
        (.node identity (.struct (before ++ ⟨name, inner', optional⟩ :: after) index) .none)
  | index {identity : Identity} {fields : List (Field Schema)} {inner inner' : Schema} :
      (fields.map Field.name).Nodup → (∀ field ∈ fields, field.node.Settled text) →
      Differ text x y inner inner' →
      Differ text x y (.node identity (.struct fields (some inner)) .none)
        (.node identity (.struct fields (some inner')) .none)
  | element {identity : Identity} {before after : List (Element Schema)} {optional : Bool}
      {rest : Option Schema} {inner inner' : Schema} :
      (∀ element ∈ before ++ after, element.node.Settled text) →
      (∀ other, rest = some other → other.Settled text) → Differ text x y inner inner' →
      Differ text x y
        (.node identity (.tuple (before ++ ⟨inner, optional⟩ :: after) rest) .none)
        (.node identity (.tuple (before ++ ⟨inner', optional⟩ :: after) rest) .none)
  | rest {identity : Identity} {elements : List (Element Schema)} {inner inner' : Schema} :
      (∀ element ∈ elements, element.node.Settled text) → Differ text x y inner inner' →
      Differ text x y (.node identity (.tuple elements (some inner)) .none)
        (.node identity (.tuple elements (some inner')) .none)
  | member {identity : Identity} {before after : List Schema} {inner inner' : Schema} :
      (∀ member ∈ before ++ after, member.Settled text) → Differ text x y inner inner' →
      Differ text x y (.node identity (.union (before ++ inner :: after)) .none)
        (.node identity (.union (before ++ inner' :: after)) .none)

section

variable {text : List Char} {x y : Binary64} {schema other : Schema} {inField : Bool}

theorem Differ.isVoid_eq_false (h : Differ text x y schema other) :
    schema.isVoid = false ∧ other.isVoid = false := by
  cases h <;> exact ⟨rfl, rfl⟩

theorem Differ.literal_cases (h : Differ text x y schema other) :
    (schema.shape = .literal (.number x) ∧ other.shape = .literal (.number y)) ∨
      (schema.literal? = none ∧ other.literal? = none) := by
  cases h with
  | number => exact .inl ⟨rfl, rfl⟩
  | _ => exact .inr ⟨rfl, rfl⟩

theorem Direct.exists_number (h : schema.Direct inField) :
    ∃ x ∈ schema.numbers, x.finite? = none := by
  have within : ∀ {identity : Identity} {shape : Shape Schema} {notes : Annotations}
      {inner : Schema}, shape.Part inner → (∃ x ∈ inner.numbers, x.finite? = none) →
        ∃ x ∈ (Schema.node identity shape notes).numbers, x.finite? = none := by
    rintro identity shape notes inner part ⟨x, mem, hx⟩
    rw [numbers_node]
    exact ⟨x, List.mem_append_right _
      (List.mem_flatMap.mpr ⟨inner, Shape.mem_parts_iff.mpr part, mem⟩), hx⟩
  induction h with
  | @number inField identity notes x hx =>
    rw [numbers_node]
    exact ⟨x, List.mem_append_left _ (List.mem_singleton_self x), hx⟩
  | field mem _ ih => exact within (.field mem) ih
  | index _ ih => exact within .index ih
  | element mem _ _ ih => exact within (.element mem) ih
  | rest _ ih => exact within .rest ih
  | only same _ ih =>
    have mem := same ▸ List.mem_singleton_self _
    exact within (.member (List.mem_filter.mp mem).1) ih
  | @numbers _ _ _ members member mem nonFinite _ =>
    obtain ⟨identity, shape, notes⟩ := member
    obtain ⟨x, rfl, hx⟩ := nonFinite
    refine within (.member (List.mem_filter.mp mem).1) ⟨x, ?_, hx⟩
    rw [numbers_node]
    exact List.mem_append_left _ (List.mem_singleton_self x)
  | alternative same _ _ _ _ ih =>
    have mem := same ▸ List.mem_append_right _ List.mem_cons_self
    exact within (.member (List.mem_filter.mp mem).1) ih

theorem IsNonFinite.direct (h : schema.IsNonFinite) : schema.Direct inField := by
  obtain ⟨identity, shape, notes⟩ := schema
  obtain ⟨x, rfl, hx⟩ := h
  exact .number hx

theorem Settled.not_direct (h : schema.Settled text) : ¬ schema.Direct inField := by
  intro direct
  obtain ⟨x, mem, hx⟩ := direct.exists_number
  obtain ⟨d, rfl, -⟩ := h.numbers x mem
  cases hx

end

/-! ## Ways to the number -/

section

variable {text : List Char} {identity : Identity} {notes : Annotations} {inField : Bool}
  {inner : Schema}

theorem direct_field_iff {before after : List (Field Schema)} {field : Field Schema}
    {index : Option Schema} (hfields : ∀ other ∈ before ++ after, other.node.Settled text)
    (hindex : ∀ other, index = some other → other.Settled text) :
    (Schema.node identity (.struct (before ++ field :: after) index) notes).Direct inField ↔
      field.node.Direct true := by
  constructor
  · intro h
    cases h with
    | field mem direct =>
      rcases List.mem_cons.mp (List.perm_middle.mem_iff.mp mem) with rfl | mem
      · exact direct
      · exact absurd direct (hfields _ mem).not_direct
    | index direct => exact absurd direct (hindex _ rfl).not_direct
  · exact .field (List.mem_append_right _ List.mem_cons_self)

theorem direct_index_iff {fields : List (Field Schema)}
    (hfields : ∀ field ∈ fields, field.node.Settled text) :
    (Schema.node identity (.struct fields (some inner)) notes).Direct inField ↔
      inner.Direct false := by
  constructor
  · intro h
    cases h with
    | field mem direct => exact absurd direct (hfields _ mem).not_direct
    | index direct => exact direct
  · exact .index

theorem direct_element_iff {before after : List (Element Schema)} {element : Element Schema}
    {rest : Option Schema} (helements : ∀ other ∈ before ++ after, other.node.Settled text)
    (hrest : ∀ other, rest = some other → other.Settled text) :
    (Schema.node identity (.tuple (before ++ element :: after) rest) notes).Direct inField ↔
      before ++ after ≠ [] ∧ element.node.Direct false := by
  have length : (before ++ element :: after).length ≠ 1 ↔ before ++ after ≠ [] := by
    rw [← List.length_pos_iff]
    simp only [List.length_append, List.length_cons]
    omega
  constructor
  · intro h
    cases h with
    | element mem several direct =>
      rcases List.mem_cons.mp (List.perm_middle.mem_iff.mp mem) with rfl | mem
      · exact ⟨length.mp several, direct⟩
      · exact absurd direct (helements _ mem).not_direct
    | rest direct => exact absurd direct (hrest _ rfl).not_direct
  · rintro ⟨several, direct⟩
    exact .element (List.mem_append_right _ List.mem_cons_self) (length.mpr several) direct

theorem direct_rest_iff {elements : List (Element Schema)}
    (helements : ∀ element ∈ elements, element.node.Settled text) :
    (Schema.node identity (.tuple elements (some inner)) notes).Direct inField ↔
      inner.Direct false := by
  constructor
  · intro h
    cases h with
    | element mem _ direct => exact absurd direct (helements _ mem).not_direct
    | rest direct => exact direct
  · exact .rest

section

variable {members before after : List Schema}
  (same : members.filter (Projection.counts inField members) = before ++ inner :: after)
  (others : ∀ other ∈ before ++ after, other.Settled text)

include same

theorem length_ne_one (several : before ++ after ≠ []) {member : Schema} :
    members.filter (Projection.counts inField members) ≠ [member] := by
  intro single
  have length := congrArg List.length (same.symm.trans single)
  have := List.length_pos_iff.mpr several
  simp only [List.length_append, List.length_cons, List.length_nil] at length this
  omega

include others

theorem alternative_eq {before' after' : List Schema} {member : Schema}
    (same' : members.filter (Projection.counts inField members) = before' ++ member :: after')
    (direct : member.Direct false) : before = before' ∧ inner = member ∧ after = after' := by
  have notBefore : member ∉ before := fun mem =>
    (others member (List.mem_append_left _ mem)).not_direct direct
  have notAfter : member ∉ after := fun mem =>
    (others member (List.mem_append_right _ mem)).not_direct direct
  exact (List.append_cons_inj_of_notMem notBefore notAfter).mp (same.symm.trans same')

theorem direct_only_iff (alone : before ++ after = []) :
    (Schema.node identity (.union members) notes).Direct inField ↔ inner.Direct false := by
  obtain ⟨rfl, rfl⟩ := List.append_eq_nil_iff.mp alone
  constructor
  · intro h
    cases h with
    | only same' direct =>
      obtain rfl : inner = _ := (List.cons.inj (same.symm.trans same')).1
      exact direct
    | numbers mem nonFinite _ =>
      rw [same] at mem
      obtain rfl := List.mem_singleton.mp mem
      exact nonFinite.direct
    | alternative same' several _ _ direct =>
      exact (alternative_eq same others same' direct).2.1 ▸ direct
  · exact .only same

theorem direct_numbers_iff (several : before ++ after ≠ []) (nonFinite : inner.IsNonFinite)
    (reached : ∀ other ∈ before, ∃ y, other.shape.number? = some y) :
    (Schema.node identity (.union members) notes).Direct inField ↔
      ∀ other ∈ after, ∃ y, other.shape.number? = some y := by
  have number : ∃ y, inner.shape.number? = some y := by
    obtain ⟨x, hshape, -⟩ := nonFinite
    exact ⟨x, by rw [hshape]; rfl⟩
  constructor
  · intro h other mem
    cases h with
    | only single _ => exact absurd single (length_ne_one same several)
    | numbers _ _ all => exact all other (same ▸ List.mem_append_right _ (List.mem_cons_of_mem _ mem))
    | alternative same' _ stops _ direct =>
      obtain ⟨rfl, rfl, rfl⟩ := alternative_eq same others same' direct
      rcases stops with none | ⟨other, mem, none⟩
      · obtain ⟨y, hy⟩ := number
        cases none.symm.trans hy
      · obtain ⟨y, hy⟩ := reached other mem
        cases none.symm.trans hy
  · intro numbers
    have mem : inner ∈ members.filter (Projection.counts inField members) :=
      same ▸ List.mem_append_right _ List.mem_cons_self
    refine .numbers mem nonFinite fun other mem => ?_
    rw [same] at mem
    rcases List.mem_append.mp mem with mem | mem
    · exact reached other mem
    · rcases List.mem_cons.mp mem with rfl | mem
      · exact number
      · exact numbers other mem

theorem direct_alternative_iff (several : before ++ after ≠ [])
    (stops : inner.shape.number? = none ∨ ∃ other ∈ before, other.shape.number? = none) :
    (Schema.node identity (.union members) notes).Direct inField ↔
      (before.map documentKey).Nodup ∧ inner.Direct false := by
  constructor
  · intro h
    cases h with
    | only single _ => exact absurd single (length_ne_one same several)
    | numbers _ _ all =>
      rw [same] at all
      rcases stops with none | ⟨other, mem, none⟩
      · obtain ⟨y, hy⟩ := all inner (List.mem_append_right _ List.mem_cons_self)
        cases none.symm.trans hy
      · obtain ⟨y, hy⟩ := all other (List.mem_append_left _ mem)
        cases none.symm.trans hy
    | alternative same' _ _ nodup direct =>
      obtain ⟨rfl, rfl, rfl⟩ := alternative_eq same others same' direct
      exact ⟨nodup, direct⟩
  · rintro ⟨nodup, direct⟩
    exact .alternative same several stops nodup direct

end

end

/-! ## The schema with a finite number -/

/-- The schema with a finite number in place of each number that is not finite. -/
def settle (d : Double) (schema : Schema) : Schema :=
  schema.mapNumbers fun x => if x.finite? = none then .finite d else x

theorem settle_struct (d : Double) (identity : Identity) (fields : List (Field Schema))
    (index : Option Schema) (notes : Annotations) :
    settle d (.node identity (.struct fields index) notes) = .node identity
      (.struct (fields.map fun field => { field with node := field.node.settle d })
        (index.map (settle d))) notes := by
  rw [settle, mapNumbers, Shape.mapNumbers, mapFieldNumbers_eq_map, mapOptionalNumbers_eq_map]
  rfl

theorem settle_tuple (d : Double) (identity : Identity) (elements : List (Element Schema))
    (rest : Option Schema) (notes : Annotations) :
    settle d (.node identity (.tuple elements rest) notes) = .node identity
      (.tuple (elements.map fun element => { element with node := element.node.settle d })
        (rest.map (settle d))) notes := by
  rw [settle, mapNumbers, Shape.mapNumbers, mapElementNumbers_eq_map, mapOptionalNumbers_eq_map]
  rfl

theorem settle_union (d : Double) (identity : Identity) (members : List Schema)
    (notes : Annotations) : settle d (.node identity (.union members) notes) =
      .node identity (.union (members.map (settle d))) notes := by
  rw [settle, mapNumbers, Shape.mapNumbers, mapMemberNumbers_eq_map]
  rfl

theorem map_append_cons_of_fixed {α : Type} {f : α → α} {before after : List α} {x : α}
    (fixed : ∀ other ∈ before ++ after, f other = other) :
    (before ++ x :: after).map f = before ++ f x :: after := by
  obtain ⟨hbefore, hafter⟩ := List.forall_mem_append.mp fixed
  rw [List.map_append, List.map_cons, List.map_congr_left hbefore, List.map_congr_left hafter,
    List.map_id', List.map_id']

/-- How many numbers of a list are not finite. -/
def countNonFinite (numbers : List Binary64) : Nat := numbers.countP fun x => x.finite?.isNone

/-- How many numbers of the schema are not finite. -/
def nonFinite (schema : Schema) : Nat := countNonFinite schema.numbers

theorem nonFinite_node (identity : Identity) (shape : Shape Schema) (notes : Annotations) :
    (Schema.node identity shape notes).nonFinite = countNonFinite shape.number?.toList +
      countNonFinite (shape.parts.flatMap numbers) := by
  rw [nonFinite, numbers_node, countNonFinite, List.countP_append]
  rfl

theorem countNonFinite_append (numbers others : List Binary64) :
    countNonFinite (numbers ++ others) = countNonFinite numbers + countNonFinite others :=
  List.countP_append

theorem eq_zero_of_flatMap {α : Type} {list : α → List Binary64} {xs : List α}
    (none : countNonFinite (xs.flatMap list) = 0) : ∀ x ∈ xs, countNonFinite (list x) = 0 := by
  intro x mem
  refine List.countP_eq_zero.mpr fun y hy => ?_
  exact List.countP_eq_zero.mp none y (List.mem_flatMap.mpr ⟨x, mem, hy⟩)

theorem exists_of_flatMap {α : Type} {list : α → List Binary64} {xs : List α}
    (one : countNonFinite (xs.flatMap list) = 1) : ∃ before x after, xs = before ++ x :: after ∧
      countNonFinite (list x) = 1 ∧ ∀ other ∈ before ++ after, countNonFinite (list other) = 0 := by
  induction xs with
  | nil => cases one
  | cons x rest ih =>
    rw [List.flatMap_cons, countNonFinite_append] at one
    rcases Nat.add_eq_one_iff.mp one with ⟨here, one⟩ | ⟨here, none⟩
    · obtain ⟨before, y, after, rfl, hy, hothers⟩ := ih one
      exact ⟨x :: before, y, after, rfl, hy, List.forall_mem_cons.mpr ⟨here, hothers⟩⟩
    · exact ⟨[], x, rest, rfl, here, eq_zero_of_flatMap none⟩

section

variable {text : List Char} {d : Double} {schema : Schema} {identity : Identity}

theorem finite_of_nonFinite (none : schema.nonFinite = 0) {x : Binary64}
    (mem : x ∈ schema.numbers) : ∃ e, x = .finite e := by
  have finite := List.countP_eq_zero.mp none x mem
  cases x with
  | finite e => exact ⟨e, rfl⟩
  | infinite negative => exact absurd rfl finite
  | undefined => exact absurd rfl finite

theorem settle_eq_self (none : schema.nonFinite = 0) : schema.settle d = schema := by
  refine mapNumbers_eq_self fun x mem => ?_
  obtain ⟨e, rfl⟩ := finite_of_nonFinite none mem
  rfl

theorem settled_of_nonFinite (bare : schema.Bare)
    (fresh : ∀ e, .finite e ∈ schema.numbers → (Number.ofDouble e).chars ≠ text)
    (none : schema.nonFinite = 0) : schema.Settled text := by
  refine ⟨bare, fun x mem => ?_⟩
  obtain ⟨e, rfl⟩ := finite_of_nonFinite none mem
  exact ⟨e, rfl, fresh e mem⟩

/-- The parts of a shape are settled, or differ from their settled forms in one number. -/
structure Parting (text : List Char) (d : Double) (shape : Shape Schema) : Prop where
  finite : ∀ inner, shape.Part inner → inner.nonFinite = 0 →
    inner.Settled text ∧ inner.settle d = inner
  differ : ∀ inner, shape.Part inner → inner.nonFinite = 1 →
    ∃ x, x.finite? = none ∧ Differ text x (.finite d) inner (inner.settle d)

namespace Parting

theorem optional {shape : Shape Schema} (parting : Parting text d shape) {schema? : Option Schema}
    (part : ∀ inner, schema? = some inner → shape.Part inner)
    (none : countNonFinite (schema?.toList.flatMap numbers) = 0) :
    (∀ inner, schema? = some inner → inner.Settled text) ∧ schema?.map (settle d) = schema? := by
  cases schema? with
  | none => exact ⟨nofun, rfl⟩
  | some inner =>
    have finite := eq_zero_of_flatMap none inner (List.mem_singleton_self inner)
    obtain ⟨settled, same⟩ := parting.finite inner (part inner rfl) finite
    refine ⟨fun other hother => ?_, congrArg some same⟩
    exact Option.some.inj hother ▸ settled

theorem fields {fields others : List (Field Schema)} {index : Option Schema}
    (parting : Parting text d (.struct fields index)) (among : ∀ field ∈ others, field ∈ fields)
    (none : ∀ field ∈ others, field.node.nonFinite = 0) :
    (∀ field ∈ others, field.node.Settled text) ∧
      ∀ field ∈ others, { field with node := field.node.settle d } = field := by
  refine ⟨fun field mem => ?_, fun field mem => ?_⟩
  · exact (parting.finite field.node (.field (among field mem)) (none field mem)).1
  · rw [(parting.finite field.node (.field (among field mem)) (none field mem)).2]

theorem elements {elements others : List (Element Schema)} {rest : Option Schema}
    (parting : Parting text d (.tuple elements rest))
    (among : ∀ element ∈ others, element ∈ elements)
    (none : ∀ element ∈ others, element.node.nonFinite = 0) :
    (∀ element ∈ others, element.node.Settled text) ∧
      ∀ element ∈ others, { element with node := element.node.settle d } = element := by
  refine ⟨fun element mem => ?_, fun element mem => ?_⟩
  · exact (parting.finite element.node (.element (among element mem)) (none element mem)).1
  · rw [(parting.finite element.node (.element (among element mem)) (none element mem)).2]

/-- The place of the number in a struct: in a field, or else in the schema of other members. -/
theorem struct {fields : List (Field Schema)} {index : Option Schema}
    (parting : Parting text d (.struct fields index)) (nodup : (fields.map Field.name).Nodup)
    (one : (Schema.node identity (.struct fields index) .none).nonFinite = 1) :
    ∃ x, x.finite? = none ∧ Differ text x (.finite d) (.node identity (.struct fields index) .none)
      (settle d (.node identity (.struct fields index) .none)) := by
  have parts : countNonFinite (fields.flatMap fun field => field.node.numbers) +
      countNonFinite (index.toList.flatMap numbers) = 1 := by
    rw [nonFinite_node, Shape.parts, List.flatMap_append, List.flatMap_map,
      countNonFinite_append] at one
    exact (Nat.zero_add _).symm.trans one
  rw [settle_struct]
  rcases Nat.add_eq_one_iff.mp parts with ⟨none, one⟩ | ⟨one, none⟩
  · cases index with
    | none => cases one
    | some inner =>
      have here : inner.nonFinite = 1 := by simpa [nonFinite] using one
      obtain ⟨x, hx, h⟩ := parting.differ inner .index here
      obtain ⟨settled, same⟩ := parting.fields (fun _ mem => mem) (eq_zero_of_flatMap none)
      rw [List.map_congr_left same, List.map_id']
      exact ⟨x, hx, .index nodup settled h⟩
  · obtain ⟨before, field, after, rfl, hfield, hothers⟩ := exists_of_flatMap one
    obtain ⟨x, hx, h⟩ :=
      parting.differ field.node (.field (List.mem_append_right _ List.mem_cons_self)) hfield
    obtain ⟨settled, same⟩ := parting.fields
      (fun _ mem => List.perm_middle.mem_iff.mpr (List.mem_cons_of_mem _ mem)) hothers
    obtain ⟨settledIndex, sameIndex⟩ := parting.optional (fun _ => .of_index) none
    rw [map_append_cons_of_fixed same, sameIndex]
    exact ⟨x, hx, .field nodup settled settledIndex h⟩

/-- The place of the number in a tuple: in an element, or else in the schema of further ones. -/
theorem tuple {elements : List (Element Schema)} {rest : Option Schema}
    (parting : Parting text d (.tuple elements rest))
    (one : (Schema.node identity (.tuple elements rest) .none).nonFinite = 1) :
    ∃ x, x.finite? = none ∧ Differ text x (.finite d) (.node identity (.tuple elements rest) .none)
      (settle d (.node identity (.tuple elements rest) .none)) := by
  have parts : countNonFinite (elements.flatMap fun element => element.node.numbers) +
      countNonFinite (rest.toList.flatMap numbers) = 1 := by
    rw [nonFinite_node, Shape.parts, List.flatMap_append, List.flatMap_map,
      countNonFinite_append] at one
    exact (Nat.zero_add _).symm.trans one
  rw [settle_tuple]
  rcases Nat.add_eq_one_iff.mp parts with ⟨none, one⟩ | ⟨one, none⟩
  · cases rest with
    | none => cases one
    | some inner =>
      have here : inner.nonFinite = 1 := by simpa [nonFinite] using one
      obtain ⟨x, hx, h⟩ := parting.differ inner .rest here
      obtain ⟨settled, same⟩ := parting.elements (fun _ mem => mem) (eq_zero_of_flatMap none)
      rw [List.map_congr_left same, List.map_id']
      exact ⟨x, hx, .rest settled h⟩
  · obtain ⟨before, element, after, rfl, helement, hothers⟩ := exists_of_flatMap one
    obtain ⟨x, hx, h⟩ :=
      parting.differ element.node (.element (List.mem_append_right _ List.mem_cons_self)) helement
    obtain ⟨settled, same⟩ := parting.elements
      (fun _ mem => List.perm_middle.mem_iff.mpr (List.mem_cons_of_mem _ mem)) hothers
    obtain ⟨settledRest, sameRest⟩ := parting.optional (fun _ => .of_rest) none
    rw [map_append_cons_of_fixed same, sameRest]
    exact ⟨x, hx, .element settled settledRest h⟩

theorem union {members : List Schema} (parting : Parting text d (.union members))
    (one : (Schema.node identity (.union members) .none).nonFinite = 1) :
    ∃ x, x.finite? = none ∧ Differ text x (.finite d) (.node identity (.union members) .none)
      (settle d (.node identity (.union members) .none)) := by
  have parts : countNonFinite (members.flatMap numbers) = 1 := by
    rw [nonFinite_node] at one
    exact (Nat.zero_add _).symm.trans one
  obtain ⟨before, inner, after, rfl, hinner, hothers⟩ := exists_of_flatMap parts
  obtain ⟨x, hx, h⟩ :=
    parting.differ inner (.member (List.mem_append_right _ List.mem_cons_self)) hinner
  have settled : ∀ other ∈ before ++ after, other.Settled text ∧ other.settle d = other :=
    fun other mem => parting.finite other
      (.member (List.perm_middle.mem_iff.mpr (List.mem_cons_of_mem _ mem))) (hothers other mem)
  rw [settle_union, map_append_cons_of_fixed fun other mem => (settled other mem).2]
  exact ⟨x, hx, .member (fun other mem => (settled other mem).1) h⟩

end Parting

/-- A schema with one number that is not finite differs from its settled form in this number. -/
theorem exists_differ (bare : schema.Bare)
    (fresh : ∀ e, .finite e ∈ schema.numbers → (Number.ofDouble e).chars ≠ text)
    (one : schema.nonFinite = 1) :
    ∃ x, x.finite? = none ∧ Differ text x (.finite d) schema (schema.settle d) := by
  induction schema using Schema.induction_on_parts with
  | node identity shape notes ih =>
    cases bare with
    | node shapeBare bare =>
      have inside : ∀ inner, shape.Part inner → ∀ e, .finite e ∈ inner.numbers →
          (Number.ofDouble e).chars ≠ text := by
        intro inner part e mem
        refine fresh e ?_
        rw [numbers_node]
        exact List.mem_append_right _
          (List.mem_flatMap.mpr ⟨inner, Shape.mem_parts_iff.mpr part, mem⟩)
      have parting : Parting text d shape :=
        ⟨fun inner part none =>
          ⟨settled_of_nonFinite (bare inner part) (inside inner part) none, settle_eq_self none⟩,
        fun inner part => ih inner part (bare inner part) (inside inner part)⟩
      cases shape with
      | struct fields index => exact parting.struct shapeBare one
      | tuple elements rest => exact parting.tuple one
      | union members => exact parting.union one
      | refinement => exact shapeBare.elim
      | recursive => exact shapeBare.elim
      | primitive | hidden =>
        rw [nonFinite_node] at one
        cases one
      | literal literal =>
        rw [nonFinite_node] at one
        cases literal with
        | number x =>
          have hx : x.finite? = none := by
            simpa [Shape.number?, Shape.parts, countNonFinite] using one
          refine ⟨x, hx, ?_⟩
          rw [settle, mapNumbers, Shape.mapNumbers, if_pos hx]
          exact .number
        | _ => cases one

end

end Schema

end SchemaDoc
