import SchemaDoc.Command.Listing
import SchemaDoc.Proofs.Json.FromText

/-!
# What a listing shows

A listing has a heading and an entry for each issue, which tells the field, the message and the
value of the issue. With colors, the field and the value stand in styles; `Styled` says what a text
in a style is.
-/
namespace SchemaDoc.Command.Listing

/-! ## Spans -/

theorem spansOf_ne_nil (cs : List Char) : spansOf cs ≠ [] := by
  fun_induction spansOf cs with
  | case1 => exact List.cons_ne_nil _ _
  | case2 => exact List.cons_ne_nil _ _
  | case3 c rest _ ih => simpa [List.modifyHead_eq_nil_iff] using ih

/-- The spans, with the ends of all styles between them, are the text. -/
theorem intercalate_spansOf (cs : List Char) : plainCode.toList.intercalate (spansOf cs) = cs := by
  fun_induction spansOf cs with
  | case1 => rfl
  | case2 rest ih =>
    rw [List.intercalate_cons_of_ne_nil (spansOf_ne_nil rest), ih]
    rfl
  | case3 c rest _ ih =>
    obtain ⟨span, spans, h⟩ := List.exists_cons_of_ne_nil (spansOf_ne_nil rest)
    rw [h] at ih ⊢
    rw [List.modifyHead_cons, List.intercalate_cons_cons_left, ih]

/-- No span has an end of all styles in it. -/
theorem not_infix_of_mem_spansOf (cs : List Char) :
    ∀ span ∈ spansOf cs, ¬ plainCode.toList <:+: span := by
  fun_induction spansOf cs with
  | case1 => exact List.forall_mem_singleton.mpr (by decide)
  | case2 rest ih => exact List.forall_mem_cons.mpr ⟨by decide, ih⟩
  | case3 c rest other ih =>
    have whole := intercalate_spansOf rest
    obtain ⟨first, spans, h⟩ := List.exists_cons_of_ne_nil (spansOf_ne_nil rest)
    rw [h] at ih whole ⊢
    obtain ⟨hfirst, hspans⟩ := List.forall_mem_cons.mp ih
    rw [List.modifyHead_cons]
    refine List.forall_mem_cons.mpr ⟨fun inside => ?_, hspans⟩
    -- The text begins with the span, so it cannot begin with an end of all styles.
    have begins : first <+: rest := by
      rw [← whole, Json.intercalate_cons]
      exact List.prefix_append _ _
    rcases List.infix_cons_iff.mp inside with start | inner
    · obtain ⟨tail, htail⟩ := start.trans (List.cons_prefix_cons.mpr ⟨rfl, begins⟩)
      obtain ⟨hc, hrest⟩ := List.cons.inj htail
      exact other tail hc.symm hrest.symm
    · exact hfirst inner

/-! ## Styles -/

/-- A text in a style. Without colors it is the text alone. With colors it stands between the code
that begins the style and the one that ends all styles, and the style begins anew wherever the text
itself ends all styles. -/
inductive Styled (code text : String) : Bool → String → Prop
  | plain : Styled code text false text
  | colored {spans : List String} : plainCode.intercalate spans = text →
      (∀ span ∈ spans, ¬ plainCode.toList <:+: span.toList) →
      Styled code text true ("\x1b[" ++ code ++ "m" ++
        (plainCode ++ ("\x1b[" ++ code ++ "m")).intercalate spans ++ plainCode)

theorem styled_isStyled (colored : Bool) (code text : String) :
    Styled code text colored (styled colored code text) := by
  cases colored with
  | false => exact .plain
  | true =>
    have same : ((spans text).map String.toList) = spansOf text.toList := by
      simp [spans]
    refine .colored ?_ fun span mem => ?_
    · rw [← String.toList_inj, String.toList_intercalate, same, intercalate_spansOf]
    · refine not_infix_of_mem_spansOf text.toList _ ?_
      rw [← same]
      exact List.mem_map_of_mem mem

/-! ## Entries -/

/-- The entry tells the field of an issue, or that there is none, its message and its value. -/
def Shows (colored : Bool) (issue : Issue) (entry : String) : Prop :=
  ∃ field value, entry = "  " ++ field ++ " " ++ issue.message ++ value ∧
    (∃ name, (issue.field = some name ∨ issue.field = none ∧ name = "(root)") ∧
      Styled yellowBold name colored field) ∧
    (issue.value = none ∧ value = "" ∨ ∃ json told, issue.value = some json ∧
      Styled dimmed ("(got " ++ json.compact ++ ")") colored told ∧ value = " " ++ told)

theorem shows_issueLine (colored : Bool) (issue : Issue) :
    Shows colored issue (issueLine colored issue) := by
  obtain ⟨field, message, path, value⟩ := issue
  refine ⟨_, _, rfl, ⟨field.getD "(root)", ?_, styled_isStyled ..⟩, ?_⟩
  · cases field with
    | none => exact .inr ⟨rfl, rfl⟩
    | some field => exact .inl rfl
  · cases value with
    | none => exact .inl ⟨rfl, rfl⟩
    | some json => exact .inr ⟨json, _, rfl, styled_isStyled .., rfl⟩

/-- The listing has a heading with the number of issues and an entry for each issue, in order, each
on a line of its own. -/
def Lists (colored : Bool) (issues : List Issue) (listing : String) : Prop :=
  ∃ mark entries, Styled redBold "✗" colored mark ∧ List.Forall₂ (Shows colored) issues entries ∧
    listing = "\n".intercalate ((mark ++ s!" {issues.length} issue(s)") :: entries)

theorem lists_ofIssues (colored : Bool) (issues : List Issue) :
    Lists colored issues (ofIssues colored issues) := by
  refine ⟨_, issues.map (issueLine colored), styled_isStyled .., ?_, rfl⟩
  rw [List.forall₂_map_right_iff]
  exact List.forall₂_same.mpr fun issue _ => shows_issueLine colored issue

end SchemaDoc.Command.Listing
