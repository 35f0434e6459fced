import Mathlib
import SchemaDoc.Proofs.Command.Delivery
import SchemaDoc.Proofs.Command.Listing
import SchemaDoc.Proofs.Issue.Leaves

/-!
# Issues of several sources

The command for issues looks into its sources one by one and stops at the first one that holds no
failure tree. If all of them hold one, what it prints or writes to a file is what it would make of a
single tree with all of these as its children. Otherwise it says so and touches no file.
-/
namespace SchemaDoc.Command

/-! ## Sources -/

/-- A path without wildcards. -/
def IsLiteral (path : String) : Prop := ∀ c ∈ path.toList, isWildcard c = false

theorem isLiteral_iff {path : String} : IsLiteral path ↔ path.toList.any isWildcard = false := by
  simp [IsLiteral]

theorem Expansion.inputs_of_literal {m : Type → Type} [Monad m] [LawfulMonad m]
    (files : FileAccess m) {written : List String} (literal : ∀ path ∈ written, IsLiteral path) :
    Expansion.inputs files written = pure written := by
  rw [inputs, mapM_eq_pure_map (g := fun path => [path]), pure_bind, ← List.flatMap_def,
    List.flatMap_singleton']
  intro path mem
  rw [isLiteral_iff.mp (literal path mem)]
  rfl

section

variable {σ : Type} (files : FileAccess (StateM σ)) {sources : List SourceFile} {s : σ}

/-- Every source is a file that can be read, under a path without wildcards. -/
def Readable (sources : List SourceFile) (s : σ) : Prop :=
  ∀ source ∈ sources, IsLiteral source.path ∧
    (files.read source.path).run s = (.ok source.text, s)

/-- Reading changes nothing. -/
theorem run_load (readable : Readable files sources s) :
    (load files (sources.map SourceFile.path)).run.run s = (.ok sources, s) := by
  have literal : ∀ path ∈ sources.map SourceFile.path, IsLiteral path :=
    List.forall_mem_map.mpr fun source mem => (readable source mem).1
  have expanded : ((Expansion.inputs files (sources.map SourceFile.path)).adapt
      Failure.unresolved).run.run s = (.ok (sources.map SourceFile.path), s) := by
    rw [Expansion.inputs_of_literal files literal]
    rfl
  rw [load, run_bind_of_ok expanded]
  apply run_mapM_of_forall₂
  rw [List.forall₂_map_left_iff, List.forall₂_same]
  intro source mem
  obtain ⟨-, hread⟩ := readable source mem
  rw [run_bind_of_ok (run_lift hread)]
  rfl

end

/-! ## What the command makes of its sources -/

section

variable {sources : List SourceFile} {trees : List IssueTree}

/-- The sources hold the failure trees, in order. -/
def Hold (sources : List SourceFile) (trees : List IssueTree) : Prop :=
  List.Forall₂ (fun source tree => IssueTree.read.decodeText source.text = .ok tree) sources trees

theorem mapM_issues_of_hold (hold : Hold sources trees) :
    sources.mapM SourceFile.issues = .ok (trees.map IssueTree.issues) := by
  apply mapM_eq_ok_of_forall₂
  rw [List.forall₂_map_right_iff]
  refine hold.imp fun source tree decoded => ?_
  rw [SourceFile.issues, decoded]

/-- The issues of trees, one after the other, are those of one tree with these children. -/
theorem flatten_issues (trees : List IssueTree) :
    (trees.map IssueTree.issues).flatten = (IssueTree.composite trees).issues := by
  rw [← List.flatMap_def, IssueTree.issues, IssueTree.issuesUnder, IssueTree.issuesOfAll_eq_flatMap]
  rfl

theorem IssuesCommand.result_of_hold (command : IssuesCommand) (colored : Bool)
    (hold : Hold sources trees) :
    command.result colored sources = .ok (
      if command.pretty then Listing.ofIssues colored (IssueTree.composite trees).issues
      else (ErrorBody.ofTree (.composite trees)).toJson.pretty) := by
  rw [result, mapM_issues_of_hold hold]
  change (if command.pretty then _ else _) = _
  rw [flatten_issues]
  split <;> rfl

/-- The source holds no failure tree for the given reason, and all sources before it hold one. -/
def FirstMalformed (sources : List SourceFile) (source : SourceFile) (problem : IssueTree) : Prop :=
  ∃ before after, sources = before ++ source :: after ∧
    (∀ earlier ∈ before, ∃ tree, IssueTree.read.decodeText earlier.text = .ok tree) ∧
    IssueTree.read.decodeText source.text = .error problem

theorem SourceFile.exists_issues_iff {source : SourceFile} :
    (∃ issues, source.issues = .ok issues) ↔
      ∃ tree, IssueTree.read.decodeText source.text = .ok tree := by
  rw [SourceFile.issues]
  cases IssueTree.read.decodeText source.text <;> simp

theorem SourceFile.issues_of_error {source : SourceFile} {problem : IssueTree}
    (h : IssueTree.read.decodeText source.text = .error problem) :
    source.issues = .error (.malformedTree source.path problem.issues) := by
  rw [SourceFile.issues, h]

/-- The first source without a failure tree is to blame. -/
theorem exists_firstMalformed {source : SourceFile} {problem : IssueTree} (mem : source ∈ sources)
    (h : IssueTree.read.decodeText source.text = .error problem) :
    ∃ source problem, FirstMalformed sources source problem ∧
      sources.mapM SourceFile.issues = .error (.malformedTree source.path problem.issues) := by
  obtain ⟨failure, failed⟩ := fails_mapM mem ⟨_, SourceFile.issues_of_error h⟩
  obtain ⟨before, first, after, same, earlier, hfirst⟩ := mapM_eq_error_iff.mp failed
  cases decoded : IssueTree.read.decodeText first.text with
  | ok tree =>
    obtain ⟨issues, hissues⟩ := SourceFile.exists_issues_iff.mpr ⟨tree, decoded⟩
    rw [hissues] at hfirst
    cases hfirst
  | error problem =>
    rw [SourceFile.issues_of_error decoded] at hfirst
    cases hfirst
    refine ⟨first, problem, ⟨before, after, same, fun source mem => ?_, decoded⟩, failed⟩
    exact SourceFile.exists_issues_iff.mp (earlier source mem)

end

section

variable {σ : Type} {files : FileAccess (StateM σ)} {colored : Bool} {command : IssuesCommand}
  {sources : List SourceFile} {s : σ} (inputs : command.inputs = sources.map SourceFile.path)
  (readable : Readable files sources s)
include inputs readable

/-- Once the sources are read, only what the command makes of them counts. -/
theorem run_perform_issues : (perform files colored (.issues command)).run.run s =
    (liftM (command.result colored sources) >>= deliver files command.out).run.run s := by
  have loaded : (load files command.inputs).run.run s = (.ok sources, s) := by
    rw [inputs, run_load files readable]
  exact run_bind_of_ok loaded

theorem run_perform_of_result {text : String} (h : command.result colored sources = .ok text) :
    (perform files colored (.issues command)).run.run s =
      (deliver files command.out text).run.run s := by
  rw [run_perform_issues inputs readable, h]
  exact run_bind_of_ok rfl

theorem run_perform_of_no_result {failure : Failure}
    (h : command.result colored sources = .error failure) :
    (perform files colored (.issues command)).run.run s = (.error failure, s) := by
  rw [run_perform_issues inputs readable, h]
  exact run_bind_of_error rfl

end

theorem Failure.text_malformedTree (path : String) (issues : List Issue) :
    (malformedTree path issues).text =
      "Error: " ++ ("malformed issue tree (" ++ path ++ "): " ++
        "; ".intercalate (issues.map fun issue =>
          issue.field.getD "(root)" ++ ": " ++ issue.message)) ++ "\n" := by
  have uncaused : (malformedTree path issues).cause? = none := rfl
  rw [text, uncaused, String.append_empty]
  rfl

/-- From any number of sources, the command makes what it would make of one failure tree that has
theirs as its children: the body of an error, or a listing with an entry for each issue of this
body. This is printed or, if the command names a file, written there. If one of the sources holds no
failure tree, nothing is written, and the program complains of the first such source and of the
issues that reading it has. -/
theorem issues_of_sources {σ : Type} (files : FileAccess (StateM σ)) (colored : Bool)
    (words : List String) (command : IssuesCommand) (sources : List SourceFile) (s : σ)
    (asked : Action.ofWords words = .ok (.issues command))
    (inputs : command.inputs = sources.map SourceFile.path)
    (readable : Readable files sources s) :
    (∀ trees, Hold sources trees → ∃ rendered,
      Delivered files rendered command.out s ((run files colored words).run s) ∧
      (command.pretty = false →
        rendered = (ErrorBody.ofTree (.composite trees)).toJson.pretty) ∧
      (command.pretty = true →
        Listing.Lists colored (ErrorBody.ofTree (.composite trees)).issues rendered)) ∧
    ∀ source ∈ sources, ∀ problem, IssueTree.read.decodeText source.text = .error problem →
      ∃ source problem, FirstMalformed sources source problem ∧
        (run files colored words).run s =
          (⟨1, "", "Error: " ++ ("malformed issue tree (" ++ source.path ++ "): " ++
            "; ".intercalate (problem.issues.map fun issue =>
              issue.field.getD "(root)" ++ ": " ++ issue.message)) ++ "\n"⟩, s) := by
  constructor
  · intro trees hold
    have performed := run_perform_of_result inputs readable (command.result_of_hold colored hold)
    refine ⟨_, delivered_of_performed asked performed, fun plain => by simp [plain],
      fun pretty => ?_⟩
    rw [pretty]
    exact Listing.lists_ofIssues colored _
  · intro source mem problem h
    obtain ⟨source, problem, first, failed⟩ := exists_firstMalformed mem h
    have nothing : command.result colored sources =
        .error (.malformedTree source.path problem.issues) := by
      rw [IssuesCommand.result, failed]
      rfl
    refine ⟨source, problem, first, ?_⟩
    rw [run_of_error asked (run_perform_of_no_result inputs readable nothing),
      Failure.text_malformedTree]

/-! ## A shelf -/

/-- Files in one place, with their texts under their names. -/
def shelf : FileAccess (StateM (List (String × String))) where
  read name := return ((← get).lookup name).elim (.error .notFound) .ok
  isThere name := return ((← get).lookup name).isSome
  isDirectory _ := return false
  list _ := return .error .notDirectory
  createAll _ := return .ok ()
  write name text := do
    set ((name, text) :: (← get).filter fun file => file.1 ≠ name)
    return .ok ()

def lostName : SourceFile :=
  ⟨"lost.json", "[\"PathWrapper\",\"name\",[\"MissingField\"]]"⟩

def wrongRoot : SourceFile :=
  ⟨"wrong.json", "[\"TypeMismatch\",\"must be a list\",null]"⟩

def tornOff : SourceFile := ⟨"torn.json", "[\"TypeMismatch\","⟩

def shelved : List (String × String) :=
  [lostName, wrongRoot, tornOff].map fun source => (source.path, source.text)

theorem readable_shelf {sources : List SourceFile}
    (among : sources ⊆ [lostName, wrongRoot, tornOff]) : Readable shelf sources shelved := by
  have each : Readable shelf [lostName, wrongRoot, tornOff] shelved := by
    refine List.forall_mem_cons.mpr ⟨⟨?_, rfl⟩, List.forall_mem_cons.mpr ⟨⟨?_, rfl⟩,
      List.forall_mem_singleton.mpr ⟨?_, rfl⟩⟩⟩ <;> exact isLiteral_iff.mpr (by decide)
  exact fun source mem => each source (among mem)

def shelvedTrees : List IssueTree :=
  [.within "name" (.missing none), .typeMismatch "must be a list" (some .null),
    .within "name" (.missing none)]

theorem hold_shelf : Hold [lostName, wrongRoot, lostName] shelvedTrees := by
  have lost : IssueTree.read.decodeText lostName.text = .ok (.within "name" (.missing none)) := by
    cbv
  have wrong : IssueTree.read.decodeText wrongRoot.text =
      .ok (.typeMismatch "must be a list" (some .null)) := by
    cbv
  exact .cons lost (.cons wrong (.cons lost .nil))

theorem exists_error_tornOff : ∃ problem,
    IssueTree.read.decodeText tornOff.text = .error problem := by
  have failed : (Reader.ofText IssueTree.read tornOff.text).isOk = false := by
    cbv
  cases torn : Reader.ofText IssueTree.read tornOff.text with
  | error error => exact ⟨error.issueTree, by rw [Reader.decodeText, torn]; rfl⟩
  | ok tree =>
    rw [torn] at failed
    cases failed

/-- What is delivered to a shelf is there afterwards, before all else. -/
theorem eq_of_delivered_shelf {text path : String} {files : List (String × String)}
    {ended : Completion × List (String × String)}
    (delivered : Delivered shelf text (some path) files ended) :
    ended = (⟨0, "", ""⟩, (path, text) :: files.filter fun file => file.1 ≠ path) := by
  have prepared_eq : ∀ {files'}, Prepared shelf path files files' → files = files' := by
    intro files' prepared
    cases prepared with
    | alone => rfl
    | around _ created => exact (Prod.mk.inj created).2
  cases delivered with
  | written prepared wrote =>
    rw [prepared_eq prepared, ← (Prod.mk.inj wrote).2]
  | unwritten _ wrote => cases (Prod.mk.inj wrote).1
  | uncreated _ created => cases (Prod.mk.inj created).1

theorem issues_of_sources_shelf :
    (∃ listing,
      (run shelf true ["issues", "--pretty", "-i", "lost.json", "wrong.json", "lost.json"]).run
        shelved = (⟨0, listing ++ "\n", ""⟩, shelved) ∧
      Listing.Lists true (IssueTree.composite shelvedTrees).issues listing) ∧
    (run shelf false ["issues", "-i", "lost.json", "wrong.json", "lost.json", "-o",
      "out/body.json"]).run shelved =
        (⟨0, "", ""⟩, ("out/body.json",
          (ErrorBody.ofTree (.composite shelvedTrees)).toJson.pretty) :: shelved) ∧
    ∃ source problem, FirstMalformed [wrongRoot, tornOff, lostName] source problem ∧
      (run shelf false ["issues", "-i", "wrong.json", "torn.json", "lost.json", "-o",
        "out/body.json"]).run shelved =
          (⟨1, "", "Error: " ++ ("malformed issue tree (" ++ source.path ++ "): " ++
            "; ".intercalate (problem.issues.map fun issue =>
              issue.field.getD "(root)" ++ ": " ++ issue.message)) ++ "\n"⟩, shelved) := by
  refine ⟨?_, ?_, ?_⟩
  · obtain ⟨rendered, delivered, -, listed⟩ := (issues_of_sources shelf true
      ["issues", "--pretty", "-i", "lost.json", "wrong.json", "lost.json"]
      ⟨["lost.json", "wrong.json", "lost.json"], true, none⟩ [lostName, wrongRoot, lostName]
      shelved (by decide +kernel) rfl (readable_shelf (by simp))).1 _ hold_shelf
    refine ⟨rendered, ?_, listed rfl⟩
    generalize (run shelf true _).run shelved = ended at delivered
    cases delivered
    rfl
  · obtain ⟨rendered, delivered, written, -⟩ := (issues_of_sources shelf false
      ["issues", "-i", "lost.json", "wrong.json", "lost.json", "-o", "out/body.json"]
      ⟨["lost.json", "wrong.json", "lost.json"], false, some "out/body.json"⟩
      [lostName, wrongRoot, lostName] shelved (by decide +kernel) rfl
      (readable_shelf (by simp))).1 _ hold_shelf
    rw [eq_of_delivered_shelf delivered, written rfl]
    rfl
  · obtain ⟨problem, torn⟩ := exists_error_tornOff
    exact (issues_of_sources shelf false
      ["issues", "-i", "wrong.json", "torn.json", "lost.json", "-o", "out/body.json"]
      ⟨["wrong.json", "torn.json", "lost.json"], false, some "out/body.json"⟩
      [wrongRoot, tornOff, lostName] shelved (by decide +kernel) rfl
      (readable_shelf (by simp))).2 tornOff (by simp) problem torn

end SchemaDoc.Command
