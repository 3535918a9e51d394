/-
Where faults come out of the shell.

The forms of a text are evaluated one after another, and something is done with each value (`Evaluator.visit`): the
shell prints it, and for a prelude nothing is done. What is evaluated in a run of a text is inside one of its forms,
once those in front are done with (`Program.Begun`); in the loading of a prelude it is in the run of one of its files
(`Prelude.Begun`), and in a run of the shell it is in the loading of the prelude or in the run of the program
(`Shell.Begun`). Nothing on the way catches a fault, so a fault that comes up anywhere ends the whole, and no other
fault of the language ends it, except for data that are nested too deeply.

`faults_end_the_shell`: a fault that comes up in the program is reported in one line with the status 1, and a fault
that comes up in the prelude ends the run without a report.
-/
import FrameLisp.Proofs.Evaluation.Begun
import FrameLisp.Shell

namespace FrameLisp

variable {fault : Fault} {w w' : World}

/-! ## Texts -/

namespace Evaluator

/-- evaluates data from left to right and does something with each value -/
def visit (ev : Evaluator) (frame : FrameId) (use : Datum → Run Unit) : List Datum → Run Unit
  | [] => pure ()
  | d :: ds => do
    let value ← ev d frame
    use value
    visit ev frame use ds

/-- does nothing with a value -/
def ignore (_ : Datum) : Run Unit := pure ()

variable {ev : Evaluator} {frame : FrameId} {use : Datum → Run Unit}

/-- data one after another: those in front first -/
theorem visit_append (front back : List Datum) :
    ev.visit frame use (front ++ back) = (do
      ev.visit frame use front
      ev.visit frame use back) := by
  induction front with
  | nil => rfl
  | cons d ds ih => simp only [List.cons_append, visit, ih, bind_assoc]

/-- evaluating data when their values do not matter -/
theorem visit_unused (ev : Evaluator) (frame : FrameId) (ds : List Datum) :
    (do
      let _ ← ev.each frame ds
      pure ()) = ev.visit frame ignore ds := by
  induction ds with
  | nil => rfl
  | cons d ds ih => simp only [each, visit, ignore, ← ih, bind_assoc, pure_bind]

/-- a fault comes up in a datum, or in what is done with its value, once those in front are done with -/
theorem visit_error {ds : List Datum} (h : ev.visit frame use ds w = (.error fault, w')) :
    ∃ front d back w₁, ds = front ++ d :: back ∧ ev.visit frame use front w = (.ok (), w₁) ∧
      (ev d frame w₁ = (.error fault, w') ∨ ∃ v w₂, use v w₂ = (.error fault, w')) := by
  induction ds generalizing w with
  | nil => cases h
  | cons d ds ih =>
    rcases Effect.bind_eq_error h with hd | ⟨v, w₁, hd, hv⟩
    · exact ⟨[], d, ds, w, rfl, rfl, Or.inl hd⟩
    · rcases Effect.bind_eq_error hv with huse | ⟨u, w₂, huse, hds⟩
      · exact ⟨[], d, ds, w, rfl, rfl, Or.inr ⟨v, w₁, huse⟩⟩
      · obtain ⟨front, e, back, w₃, rfl, hfront, he⟩ := ih hds
        refine ⟨d :: front, e, back, w₃, rfl, ?_, he⟩
        rw [visit, Effect.bind_ok hd, Effect.bind_ok huse, hfront]

end Evaluator

namespace Program

/-- evaluates the forms of a text and does something with each value -/
def runWith (limits : Limits) (use : Datum → Run Unit) (frame : FrameId) (source : String) : Run Unit := do
  let forms ← read limits source
  (Datum.value limits).visit frame use forms

/-- an evaluation that is begun in such a run: inside a form, when those in front are done with -/
inductive Begun (limits : Limits) (use : Datum → Run Unit) (frame : FrameId) (source : String) (w : World)
    (y : Evaluation) : Prop
  | intro {forms w₁ front d back w₂} (hread : read limits source w = (.ok forms, w₁))
    (hforms : forms = front ++ d :: back) (hfront : (Datum.value limits).visit frame use front w₁ = (.ok (), w₂))
    (hinside : Evaluation.Inside limits.display ⟨limits.evaluation, d, frame, w₂⟩ y)

variable {limits : Limits} {use : Datum → Run Unit} {frame : FrameId} {source : String} {y : Evaluation}

/-- a fault that comes up in a run of a text ends it -/
theorem Begun.run_error (h : Begun limits use frame source w y) (hy : y.run limits.display = (.error fault, w')) :
    runWith limits use frame source w = (.error fault, w') := by
  obtain ⟨hread, hforms, hfront, hinside⟩ := h
  have hform := hinside.run_error hy
  rw [runWith, Effect.bind_ok hread, hforms, Evaluator.visit_append, Effect.bind_ok hfront, Evaluator.visit]
  exact Effect.bind_error hform _

/-- a fault that ends a run of a text came up in it, unless something was nested too deeply -/
theorem exists_begun (huse : ∀ v w fault w', use v w = (.error fault, w') → fault = .tooDeep)
    (h : runWith limits use frame source w = (.error fault, w')) (hfault : fault ≠ .tooDeep) :
    ∃ y, Begun limits use frame source w y ∧ y.run limits.display = (.error fault, w') := by
  rw [runWith] at h
  rcases Effect.bind_eq_error h with hread | ⟨forms, w₁, hread, hvisit⟩
  · exact absurd (read_error hread) hfault
  · obtain ⟨front, d, back, w₂, hforms, hfront, hd | ⟨v, w₃, hv⟩⟩ := Evaluator.visit_error hvisit
    · exact ⟨⟨limits.evaluation, d, frame, w₂⟩, .intro hread hforms hfront .refl, hd⟩
    · exact absurd (huse v w₃ fault w' hv) hfault

end Program

/-! ## The prelude -/

namespace Prelude

/-- nothing is done with the values of a prelude -/
theorem evaluate_eq (limits : Limits) (frame : FrameId) (source : String) :
    evaluate limits frame source = (Program.runWith limits Evaluator.ignore frame source).mapFault .program := by
  rw [evaluate, Program.run, Program.runWith, bind_assoc]
  simp only [Evaluator.visit_unused]

/-- an evaluation that is begun when programs are evaluated one after another, in a file that can be read -/
inductive BegunIn (s : Surroundings) (frame : FrameId) (directory : Path) : World → List String → Evaluation → Prop
  | here {w name names source y} (hsource : sourceOf s (directory.entry name) = .ok source)
    (h : Program.Begun s.limits Evaluator.ignore frame source (w.note (.loading (directory.entry name))) y) :
    BegunIn s frame directory w (name :: names) y
  | later {w name names source w' y} (hsource : sourceOf s (directory.entry name) = .ok source)
    (hdone : evaluate s.limits frame source (w.note (.loading (directory.entry name))) = (.ok (), w'))
    (h : BegunIn s frame directory w' names y) : BegunIn s frame directory w (name :: names) y

/-- an evaluation that is begun when the prelude is loaded -/
inductive Begun (s : Surroundings) (frame : FrameId) (w : World) (y : Evaluation) : Prop
  | intro {path entries searchable} (hpath : directory s = .ok path)
    (hfind : s.files.find path = .ok (some (.directory entries searchable)))
    (h : BegunIn s frame path w (programs entries) y)

variable {s : Surroundings} {frame : FrameId} {path : Path} {names : List String} {y : Evaluation}

theorem loadEach_cons {name source : String} (hsource : sourceOf s (path.entry name) = .ok source) (w : World) :
    loadEach s frame path (name :: names) w =
      (evaluate s.limits frame source >>= fun _ => loadEach s frame path names)
        (w.note (.loading (path.entry name))) := by
  have hread : (Effect.ofExcept (sourceOf s (path.entry name)) : Load String) (w.note (.loading (path.entry name)))
      = (.ok source, w.note (.loading (path.entry name))) := by
    rw [Effect.ofExcept_apply, hsource]
  rw [loadEach, Effect.bind_ok (Effect.note_apply _ _), Effect.bind_ok hread]

theorem BegunIn.load_error (h : BegunIn s frame path w names y) (hy : y.run s.limits.display = (.error fault, w')) :
    loadEach s frame path names w = (.error (.program fault), w') := by
  induction h with
  | @here w name names source y hsource h =>
    have hfile : evaluate s.limits frame source (w.note (.loading (path.entry name)))
        = (.error (.program fault), w') := by
      rw [evaluate_eq]
      exact Effect.mapFault_error (h.run_error hy)
    rw [loadEach_cons hsource, Effect.bind_error hfile]
  | later hsource hdone _ ih => rw [loadEach_cons hsource, Effect.bind_ok hdone, ih hy]

theorem exists_begunIn (h : loadEach s frame path names w = (.error (.program fault), w')) (hfault : fault ≠ .tooDeep) :
    ∃ y, BegunIn s frame path w names y ∧ y.run s.limits.display = (.error fault, w') := by
  induction names generalizing w with
  | nil => cases h
  | cons name names ih =>
    rcases Effect.bind_eq_error h with hnote | ⟨u, w₁, hnote, hrest⟩
    · cases hnote
    · cases hnote
      rcases Effect.bind_eq_error hrest with hfile | ⟨source, w₂, hfile, hrest⟩
      · exact (ofFiles_of_sourceOf (Prod.mk.inj hfile).1).elim
      · obtain ⟨hsource, rfl⟩ := Prod.mk.inj hfile
        rcases Effect.bind_eq_error hrest with hrun | ⟨u, w₃, hdone, hrest⟩
        · rw [evaluate_eq] at hrun
          obtain ⟨fault', hrun, hfault'⟩ := Effect.mapFault_eq_error hrun
          cases hfault'
          obtain ⟨y, hy, hyrun⟩ := Program.exists_begun (fun _ _ _ _ h => by cases h) hrun hfault
          exact ⟨y, .here hsource hy, hyrun⟩
        · obtain ⟨y, hy, hyrun⟩ := ih hrest
          exact ⟨y, .later hsource hdone hy, hyrun⟩

/-- a fault that comes up when the prelude is loaded ends the loading -/
theorem Begun.load_error (h : Begun s frame w y) (hy : y.run s.limits.display = (.error fault, w')) :
    loadIfPresent s frame w = (.error (.program fault), w') := by
  obtain ⟨hpath, hfind, h⟩ := h
  refine loadIfPresent_eq_error_iff.2 ⟨?_, by simp⟩
  rw [load_eq hpath hfind]
  exact h.load_error hy

/-- a fault of the programs that ends the loading of the prelude came up in it -/
theorem exists_begun (h : loadIfPresent s frame w = (.error (.program fault), w')) (hfault : fault ≠ .tooDeep) :
    ∃ y, Begun s frame w y ∧ y.run s.limits.display = (.error fault, w') := by
  obtain ⟨path, entries, searchable, hpath, hfind, hload⟩ := load_eq_program (loadIfPresent_eq_error_iff.1 h).1
  obtain ⟨y, hy, hyrun⟩ := exists_begunIn hload hfault
  exact ⟨y, .intro hpath hfind hy, hyrun⟩

end Prelude

/-! ## The shell -/

namespace Session

/-- the world in which a session loads its prelude: there is a root frame -/
def opening (w : World) : World := { w with store := w.store.push Builtin.bindings none }

theorem start_prelude (s : Surroundings) (w : World) :
    start s .prelude w = (do
      Prelude.loadIfPresent s w.store.size
      pure w.store.size) (opening w) := rfl

end Session

namespace Shell

/-- prints the line for a value -/
def printResult (limits : Limits) (value : Datum) : Run Unit := do
  let text ← value.displayed limits
  Effect.print ("Result: " ++ text ++ "\n")

theorem printEach_eq (limits : Limits) (frame : FrameId) (forms : List Datum) :
    printEach limits frame forms = (Datum.value limits).visit frame (printResult limits) forms := by
  induction forms with
  | nil => rfl
  | cons d ds ih => simp only [printEach, Evaluator.visit, printResult, ih, bind_assoc]

theorem printProgram_eq (limits : Limits) (frame : FrameId) (source : String) :
    printProgram limits frame source = Program.runWith limits (printResult limits) frame source := by
  rw [printProgram, Program.runWith]
  simp only [printEach_eq]

theorem printResult_ok {limits : Limits} {v : Datum} (h : v.nestedWithin limits.display = true) (w : World) :
    printResult limits v w = (.ok (), w.print ("Result: " ++ v.display ++ "\n")) := by
  rw [printResult, Datum.displayed, if_pos h]
  rfl

theorem printResult_tooDeep {limits : Limits} {v : Datum} (h : v.nestedWithin limits.display = false) (w : World) :
    printResult limits v w = (.error .tooDeep, w) := by
  rw [printResult, Datum.displayed, if_neg (by simp [h])]
  rfl

/-- a value is printed unless it is nested too deeply -/
theorem printResult_error {limits : Limits} {v : Datum} (h : printResult limits v w = (.error fault, w')) :
    fault = .tooDeep := by
  cases hv : v.nestedWithin limits.display with
  | true =>
    rw [printResult_ok hv] at h
    cases h
  | false =>
    rw [printResult_tooDeep hv] at h
    cases h
    rfl

/-- the prompt that is shown and the program text that is run, unless the input is over -/
def program? (s : Surroundings) (args : List String) (input : String) : Option (String × String) :=
  if args.isEmpty then (firstLine? input).map fun source => (s.settings.promptText, source)
  else some ("", " ".intercalate args)

theorem run_of_program? {s : Surroundings} {args : List String} {input prompt source : String}
    (h : program? s args input = some (prompt, source)) : run s args input = runProgram s prompt source := by
  rw [program?] at h
  rw [run]
  split at h
  · next hargs =>
    obtain ⟨line, hline, hprogram⟩ := Option.map_eq_some_iff.1 h
    cases hprogram
    rw [if_pos hargs, hline]
  · next hargs =>
    cases h
    rw [if_neg hargs]

/-- the two texts that a run evaluates -/
inductive Stage where
  | prelude
  | program
  deriving DecidableEq, Repr

/-- how a run ends after a fault -/
def Stage.ending (fault : Fault) : Stage → Ending
  | .prelude => .escaped (.program fault)
  | .program => .failed fault

/-- an evaluation that is begun in a run of the shell -/
inductive Begun (s : Surroundings) (prompt source : String) : Stage → Evaluation → Prop
  | prelude {y} (h : Prelude.Begun s 0 (Session.opening (World.empty.print prompt)) y) :
    Begun s prompt source .prelude y
  | program {root w y} (hstart : Session.start s .prelude (World.empty.print prompt) = (.ok root, w))
    (h : Program.Begun s.limits (printResult s.limits) root source w y) : Begun s prompt source .program y

variable {s : Surroundings} {prompt source : String} {stage : Stage} {y : Evaluation}

theorem runProgram_of_start_error {e : LoadFault}
    (h : Session.start s .prelude (World.empty.print prompt) = (.error e, w)) :
    runProgram s prompt source = ⟨w.printed, w.notes.toList, .escaped e⟩ := by
  rw [runProgram, h]

theorem runProgram_of_error {root : FrameId}
    (hstart : Session.start s .prelude (World.empty.print prompt) = (.ok root, w))
    (h : printProgram s.limits root source w = (.error fault, w')) :
    runProgram s prompt source = ⟨w'.printed, w'.notes.toList, .failed fault⟩ := by
  rw [runProgram, hstart]
  simp only [h]

theorem runProgram_of_ok {root : FrameId}
    (hstart : Session.start s .prelude (World.empty.print prompt) = (.ok root, w))
    (h : printProgram s.limits root source w = (.ok (), w')) :
    runProgram s prompt source = ⟨w'.printed, w'.notes.toList, .done⟩ := by
  rw [runProgram, hstart]
  simp only [h]

/-- a fault that comes up in a run of the shell ends it -/
theorem Begun.ending_eq (h : Begun s prompt source stage y) (hy : y.run s.limits.display = (.error fault, w')) :
    (runProgram s prompt source).ending = stage.ending fault := by
  cases h with
  | prelude h =>
    have hstart : Session.start s .prelude (World.empty.print prompt) = (.error (.program fault), w') := by
      rw [Session.start_prelude]
      exact Effect.bind_error (h.load_error hy) _
    rw [runProgram_of_start_error hstart]
    rfl
  | program hstart h =>
    have hprogram := h.run_error hy
    rw [← printProgram_eq] at hprogram
    rw [runProgram_of_error hstart hprogram]
    rfl

/-- a fault that ends a run of the shell came up in it, unless something was nested too deeply -/
theorem exists_begun (h : (runProgram s prompt source).ending = stage.ending fault) (hfault : fault ≠ .tooDeep) :
    ∃ y w', Begun s prompt source stage y ∧ y.run s.limits.display = (.error fault, w') := by
  cases hstart : Session.start s .prelude (World.empty.print prompt) with
  | mk r w =>
    cases r with
    | error e =>
      rw [runProgram_of_start_error hstart] at h
      cases stage with
      | program => cases h
      | prelude =>
        cases h
        rw [Session.start_prelude] at hstart
        rcases Effect.bind_eq_error hstart with hload | ⟨u, w₁, -, hpure⟩
        · obtain ⟨y, hy, hyrun⟩ := Prelude.exists_begun hload hfault
          exact ⟨y, w, .prelude hy, hyrun⟩
        · cases (Prod.mk.inj hpure).1
    | ok root =>
      cases hprogram : printProgram s.limits root source w with
      | mk r' w' =>
        cases r' with
        | ok u =>
          rw [runProgram_of_ok hstart hprogram] at h
          cases stage <;> cases h
        | error e =>
          rw [runProgram_of_error hstart hprogram] at h
          cases stage with
          | prelude => cases h
          | program =>
            cases h
            rw [printProgram_eq] at hprogram
            obtain ⟨y, hy, hyrun⟩ := Program.exists_begun (fun _ _ _ _ => printResult_error) hprogram hfault
            exact ⟨y, w', .program hstart hy, hyrun⟩

end Shell

/-- **Faults of the program are reported, faults of the prelude are not.** Let a fault come up anywhere in a run of the
shell. In the program, it ends the run with the status 1, and one line about it is the last of the error output, after
the notes that are shown. In the prelude, the run escapes with it: there is no status and no line about it. And a run
does not end with another fault than one that came up in it, except for data that are nested too deeply. -/
theorem faults_end_the_shell {s : Surroundings} {args : List String} {input prompt source : String}
    (h : Shell.program? s args input = some (prompt, source)) :
    let r := Shell.run s args input
    (∀ y fault w', Shell.Begun s prompt source .program y → y.run s.limits.display = (.error fault, w') →
      r.ending = .failed fault ∧ r.status? = some 1 ∧
        r.errorOutput s.settings
          = String.join ((r.noteLines s.settings ++ ["Error: " ++ fault.message]).map (· ++ "\n"))) ∧
    (∀ y fault w', Shell.Begun s prompt source .prelude y → y.run s.limits.display = (.error fault, w') →
      r.ending = .escaped (.program fault) ∧ r.status? = none ∧
        r.errorOutput s.settings = String.join ((r.noteLines s.settings).map (· ++ "\n"))) ∧
    ∀ stage fault, r.ending = Shell.Stage.ending fault stage → fault ≠ .tooDeep →
      ∃ y w', Shell.Begun s prompt source stage y ∧ y.run s.limits.display = (.error fault, w') := by
  intro r
  have hrun : r = Shell.runProgram s prompt source := Shell.run_of_program? h
  refine ⟨fun y fault w' hy hyrun => ?_, fun y fault w' hy hyrun => ?_, fun stage fault hending hfault => ?_⟩
  · have hending : r.ending = .failed fault := by
      rw [hrun]
      exact hy.ending_eq hyrun
    refine ⟨hending, ?_, ?_⟩
    · rw [Shell.Report.status?, hending]
    · rw [Shell.Report.errorOutput, Shell.Report.faultLines, hending]
  · have hending : r.ending = .escaped (.program fault) := by
      rw [hrun]
      exact hy.ending_eq hyrun
    refine ⟨hending, ?_, ?_⟩
    · rw [Shell.Report.status?, hending]
    · rw [Shell.Report.errorOutput, Shell.Report.faultLines, hending, List.append_nil]
  · rw [hrun] at hending
    exact Shell.exists_begun hending hfault

/-- surroundings where nothing is set and the standard prelude has these files -/
def Surroundings.withPrelude (files : List (String × String)) : Surroundings where
  settings := .unset
  files :=
    { root := .directory [("prelude", .directory (files.map fun file => (file.1, .file file.2.toUTF8)))]
      working := [] }
  standardPrelude := ⟨.root, ["prelude"]⟩

/-- the name that was not found, and in which text, if a run ended with that -/
def Shell.Ending.unbound? : Shell.Ending → Option (Shell.Stage × String)
  | .failed (.unbound name) => some (.program, name)
  | .escaped (.program (.unbound name)) => some (.prelude, name)
  | _ => none

theorem Shell.Ending.eq_of_unbound? {e : Shell.Ending} {stage : Shell.Stage} {name : String}
    (h : e.unbound? = some (stage, name)) : e = stage.ending (.unbound name) := by
  unfold unbound? at h
  split at h <;> cases h <;> rfl

/-- a function of the prelude looks up a name that is not there, once it is called by the program -/
theorem fault_in_function_of_prelude_is_reported :
    let s := Surroundings.withPrelude [("a.lisp", "(define add (lambda (x) (+ x y)))")]
    let args := ["(print 1)", "(add 2)"]
    let r := Shell.run s args ""
    Shell.program? s args "" = some ("", "(print 1) (add 2)") ∧
      (∃ y w', Shell.Begun s "" "(print 1) (add 2)" .program y ∧ y.run s.limits.display = (.error (.unbound "y"), w')) ∧
      r.status? = some 1 ∧ r.output = "1\nResult: 1\n" ∧
      r.errorOutput s.settings = "Error: Cannot lookup unbound identifier y\n" := by
  intro s args r
  have h : Shell.program? s args "" = some ("", "(print 1) (add 2)") := by decide +kernel
  have hending : r.ending = Shell.Stage.program.ending (.unbound "y") :=
    Shell.Ending.eq_of_unbound? (by decide +kernel)
  obtain ⟨hprogram, -, hall⟩ := faults_end_the_shell h
  obtain ⟨y, w', hy, hyrun⟩ := hall .program _ hending (by simp)
  obtain ⟨-, hstatus, herror⟩ := hprogram y _ w' hy hyrun
  refine ⟨h, ⟨y, w', hy, hyrun⟩, hstatus, by decide +kernel, ?_⟩
  rw [herror]
  decide +kernel

/-- a prelude that looks up a name that is not there: the run has no status and prints no line -/
theorem fault_of_prelude_is_not_reported :
    ¬ ∀ s args input prompt source stage y fault w', Shell.program? s args input = some (prompt, source) →
      fault ≠ .tooDeep → Shell.Begun s prompt source stage y → y.run s.limits.display = (.error fault, w') →
      let r := Shell.run s args input
      r.status? = some 1 ∧ r.errorOutput s.settings
        = String.join ((r.noteLines s.settings ++ ["Error: " ++ fault.message]).map (· ++ "\n")) := by
  intro h
  have hprogram : Shell.program? (.withPrelude [("a.lisp", "(nope)")]) ["1"] "" = some ("", "1") := by decide +kernel
  have hending : (Shell.runProgram (.withPrelude [("a.lisp", "(nope)")]) "" "1").ending
      = Shell.Stage.prelude.ending (.unbound "nope") :=
    Shell.Ending.eq_of_unbound? (by decide +kernel)
  obtain ⟨y, w', hy, hyrun⟩ := Shell.exists_begun hending (by simp)
  have hstatus := (h _ _ _ _ _ _ y _ w' hprogram (by simp) hy hyrun).1
  rw [Shell.run_of_program? hprogram, Shell.Report.status?, hending] at hstatus
  cases hstatus

end FrameLisp
