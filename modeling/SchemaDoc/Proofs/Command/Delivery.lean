import SchemaDoc.Command.Run
import SchemaDoc.Proofs.Results

/-!
# What becomes of a text

A command that has made its text prints it or writes it to a file. `Delivered` says how the program
ends in either case and in which state it leaves the files, whatever access to files it has.
-/
namespace SchemaDoc.Command

/-! ## Steps that may fail, over a state -/

section

variable {ε σ α β : Type} {step : ExceptT ε (StateM σ) α} {next : α → ExceptT ε (StateM σ) β}
  {s s' : σ}

theorem run_bind_of_ok {a : α} (h : step.run.run s = (.ok a, s')) :
    (step >>= next).run.run s = (next a).run.run s' := by
  rw [ExceptT.run_bind, StateT.run_bind, h]
  rfl

theorem run_bind_of_error {error : ε} (h : step.run.run s = (.error error, s')) :
    (step >>= next).run.run s = (.error error, s') := by
  rw [ExceptT.run_bind, StateT.run_bind, h]
  rfl

/-- What is done on the state alone does not fail. -/
theorem run_lift {action : StateM σ α} {a : α} (h : action.run s = (a, s')) :
    (liftM action : ExceptT ε (StateM σ) α).run.run s = (.ok a, s') := by
  change (Except.ok (action.run s).1, (action.run s).2) = _
  rw [h]

/-- Steps that leave the state alone do so together. -/
theorem run_mapM_of_forall₂ {γ : Type} {f : γ → ExceptT ε (StateM σ) α} {xs : List γ} {ys : List α}
    (h : List.Forall₂ (fun x y => (f x).run.run s = (.ok y, s)) xs ys) :
    (xs.mapM f).run.run s = (.ok ys, s) := by
  induction h with
  | nil => rfl
  | cons hfirst _ ih =>
    rw [List.mapM_cons, run_bind_of_ok hfirst, run_bind_of_ok ih]
    rfl

end

/-! ## Texts that are printed or written -/

/-- The directory around a path is made, if the path has one. -/
inductive Prepared {σ : Type} (files : FileAccess (StateM σ)) (path : String) : σ → σ → Prop
  | alone {s : σ} : Path.parent? path = none → Prepared files path s s
  | around {directory : String} {s s' : σ} : Path.parent? path = some directory →
      (files.createAll directory).run s = (.ok (), s') → Prepared files path s s'

/-- The end of a program that has a text to show, and the files it leaves. Where no path is given,
the text is printed and a line feed after it, and the files stay as they are. Otherwise the
directory around the path is made, then the text is written there, and nothing is printed; the first
of these that fails is told. -/
inductive Delivered {σ : Type} (files : FileAccess (StateM σ)) (text : String) :
    Option String → σ → Completion × σ → Prop
  | printed {s : σ} : Delivered files text none s (⟨0, text ++ "\n", ""⟩, s)
  | written {path : String} {s s' s'' : σ} : Prepared files path s s' →
      (files.write path text).run s' = (.ok (), s'') →
      Delivered files text (some path) s (⟨0, "", ""⟩, s'')
  | unwritten {path : String} {error : FileError} {s s' s'' : σ} : Prepared files path s s' →
      (files.write path text).run s' = (.error error, s'') →
      Delivered files text (some path) s (⟨1, "", (Failure.unwritten path error).text⟩, s'')
  | uncreated {path directory : String} {error : FileError} {s s' : σ} :
      Path.parent? path = some directory →
      (files.createAll directory).run s = (.error error, s') →
      Delivered files text (some path) s (⟨1, "", (Failure.uncreated directory error).text⟩, s')

section

variable {σ : Type} {files : FileAccess (StateM σ)} {colored : Bool} {words : List String}
  {action : Action} {s s' : σ}

/-- What is said when all is done goes to the output; a failure is told instead. -/
theorem run_eq_of_asked (asked : Action.ofWords words = .ok action) :
    run files colored words = (perform files colored action).run >>= fun
      | .ok output => pure ⟨0, output, ""⟩
      | .error failure => pure ⟨1, "", failure.text⟩ := by
  unfold run
  generalize Action.ofWords words = parsed at asked ⊢
  subst asked
  rfl

theorem run_of_ok {output : String} (asked : Action.ofWords words = .ok action)
    (performed : (perform files colored action).run.run s = (.ok output, s')) :
    (run files colored words).run s = (⟨0, output, ""⟩, s') := by
  rw [run_eq_of_asked asked, StateT.run_bind, performed]
  rfl

theorem run_of_error {failure : Failure} (asked : Action.ofWords words = .ok action)
    (performed : (perform files colored action).run.run s = (.error failure, s')) :
    (run files colored words).run s = (⟨1, "", failure.text⟩, s') := by
  rw [run_eq_of_asked asked, StateT.run_bind, performed]
  rfl

variable {path text : String}

/-- Once the directory around is there, all depends on the writing. -/
theorem run_deliver_of_prepared {s'' : σ} {result : Except FileError Unit}
    (prepared : Prepared files path s s')
    (h : (files.write path text).run s' = (result, s'')) :
    (deliver files (some path) text).run.run s =
      match result with
      | .ok _ => (.ok "", s'')
      | .error error => (.error (.unwritten path error), s'') := by
  cases prepared with
  | alone around =>
    simp only [deliver, around]
    rw [run_bind_of_ok (run_lift h)]
    cases result <;> rfl
  | around around created =>
    simp only [deliver, around]
    rw [run_bind_of_ok (run_lift created)]
    refine (run_bind_of_ok (run_lift h)).trans ?_
    cases result <;> rfl

theorem run_deliver_of_uncreated {directory : String} {error : FileError}
    (around : Path.parent? path = some directory)
    (h : (files.createAll directory).run s = (.error error, s')) :
    (deliver files (some path) text).run.run s = (.error (.uncreated directory error), s') := by
  simp only [deliver, around]
  rw [run_bind_of_ok (run_lift h)]
  rfl

theorem delivered_of_prepared (asked : Action.ofWords words = .ok action)
    (performed : (perform files colored action).run.run s =
      (deliver files (some path) text).run.run s)
    (prepared : Prepared files path s s') :
    Delivered files text (some path) s ((run files colored words).run s) := by
  cases h : (files.write path text).run s' with
  | mk result s'' =>
    rw [run_deliver_of_prepared prepared h] at performed
    cases result with
    | ok _ =>
      rw [run_of_ok asked performed]
      exact .written prepared h
    | error error =>
      rw [run_of_error asked performed]
      exact .unwritten prepared h

/-- A program whose work comes down to showing a text prints it or writes it to the file. -/
theorem delivered_of_performed {out : Option String} (asked : Action.ofWords words = .ok action)
    (performed : (perform files colored action).run.run s = (deliver files out text).run.run s) :
    Delivered files text out s ((run files colored words).run s) := by
  cases out with
  | none =>
    rw [run_of_ok asked performed]
    exact .printed
  | some path =>
    cases around : Path.parent? path with
    | none => exact delivered_of_prepared asked performed (.alone around)
    | some directory =>
      cases created : (files.createAll directory).run s with
      | mk result s' =>
        cases result with
        | ok _ => exact delivered_of_prepared asked performed (.around around created)
        | error error =>
          rw [run_deliver_of_uncreated around created] at performed
          rw [run_of_error asked performed]
          exact .uncreated around created

end

end SchemaDoc.Command
