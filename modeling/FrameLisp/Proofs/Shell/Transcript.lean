/-
What a run of the shell shows.

`Course` follows forms that a session evaluates one after another: each prints a text and has a value, until one fails
or has a value that is nested too deeply to be shown. Forms always have a course (`exists_course`). It is a matter of
the session alone: no value is shown in it. The shell shows the values of the forms between what they print, which does
not influence them, so it follows the course (`Course.printEach_eq`).

`shell_shows_course`: the output of the shell is the prompt, what the prelude printed, and for each form of the course
what it printed and the line with its value; then what the form printed that stopped the course, if one did.
-/
import FrameLisp.Proofs.Session.Output
import FrameLisp.Proofs.Shell.Faults

namespace FrameLisp

namespace Shell

/-- forms that are evaluated one after another in a frame: what each of them printed and its value, as long as the
values can be shown, and what the form printed and the fault that stopped them, if one did -/
inductive Course (limits : Limits) (root : FrameId) :
    World → List Datum → List (String × Datum) → Option (String × Fault) → World → Prop
  | done {w} : Course limits root w [] [] none w
  | shown {w w₁ w' d ds v text results stop} (hd : d.value limits root w = (.ok v, w₁))
    (htext : w₁.printed = w.printed ++ text) (hv : v.nestedWithin limits.display = true)
    (h : Course limits root w₁ ds results stop w') :
    Course limits root w (d :: ds) ((text, v) :: results) stop w'
  /-- the value of a form is nested too deeply to be shown -/
  | unshown {w w' d ds v text} (hd : d.value limits root w = (.ok v, w')) (htext : w'.printed = w.printed ++ text)
    (hv : v.nestedWithin limits.display = false) : Course limits root w (d :: ds) [] (some (text, .tooDeep)) w'
  | failed {w w' d ds fault text} (hd : d.value limits root w = (.error fault, w'))
    (htext : w'.printed = w.printed ++ text) : Course limits root w (d :: ds) [] (some (text, fault)) w'

variable {limits : Limits} {root : FrameId} {w w' v : World} {forms : List Datum} {results : List (String × Datum)}
  {stop : Option (String × Fault)}

theorem exists_course (limits : Limits) (root : FrameId) (w : World) (forms : List Datum) :
    ∃ results stop w', Course limits root w forms results stop w' := by
  induction forms generalizing w with
  | nil => exact ⟨[], none, w, .done⟩
  | cons d ds ih =>
    obtain ⟨-, -, text, htext, -⟩ := (d.value_appends limits root).outcome (w := w) rfl
    cases hd : d.value limits root w with
    | mk r w₁ =>
      rw [hd] at htext
      cases r with
      | error fault => exact ⟨[], _, w₁, .failed hd htext⟩
      | ok u =>
        cases hu : u.nestedWithin limits.display with
        | false => exact ⟨[], _, w₁, .unshown hd htext hu⟩
        | true =>
          obtain ⟨results, stop, w', h⟩ := ih w₁
          exact ⟨_, stop, w', .shown hd htext hu h⟩

/-- how a course ends for the shell -/
def outcome : Option (String × Fault) → Except Fault Unit
  | none => .ok ()
  | some (_, fault) => .error fault

/-- what is printed for a form: what it prints itself and the line with its value -/
def shownText (result : String × Datum) : String := result.1 ++ "Result: " ++ result.2.display ++ "\n"

/-- what is printed in a course when its values are shown -/
def courseText (results : List (String × Datum)) (stop : Option (String × Fault)) : String :=
  String.join (results.map shownText) ++ (stop.map Prod.fst).getD ""

theorem courseText_stopped (text : String) (fault : Fault) : courseText [] (some (text, fault)) = text :=
  String.empty_append

/-- a form comes to the same where the frames are the same, and prints the same -/
theorem value_of_store_eq {d : Datum} {r : Except Fault Datum} {w₁ : World} {text : String}
    (hd : d.value limits root w = (r, w₁)) (htext : w₁.printed = w.printed ++ text) (hv : v.store = w.store) :
    ∃ v₁, d.value limits root v = (r, v₁) ∧ v₁.store = w₁.store ∧ v₁.printed = v.printed ++ text := by
  obtain ⟨hresult, hstore, out, hout, hout'⟩ := (d.value_appends limits root).outcome hv
  rw [hd] at hresult hstore hout'
  have htext' : text = out := (String.append_right_inj _).1 (htext.symm.trans hout')
  refine ⟨(d.value limits root v).2, Prod.ext hresult rfl, hstore, ?_⟩
  rw [hout, htext']

/-- the shell follows the course -/
theorem Course.printEach_eq (h : Course limits root w forms results stop w') (hv : v.store = w.store) :
    ∃ v', printEach limits root forms v = (outcome stop, v') ∧ v'.store = w'.store ∧
      v'.printed = v.printed ++ courseText results stop := by
  rw [Shell.printEach_eq]
  -- the lines with values set the shell's world apart from the session's, but only in what was printed
  induction h generalizing v with
  | done => exact ⟨v, rfl, hv, String.append_empty.symm⟩
  | @shown w w₁ w' d ds u text results stop hd htext hu _ ih =>
    obtain ⟨v₁, hd', hstore, hprinted⟩ := value_of_store_eq hd htext hv
    obtain ⟨v', hvisit, hstore', hprinted'⟩ := ih (v := v₁.print ("Result: " ++ u.display ++ "\n")) hstore
    refine ⟨v', ?_, hstore', ?_⟩
    · rw [Evaluator.visit, Effect.bind_ok hd', Effect.bind_ok (printResult_ok hu v₁), hvisit]
    · rw [hprinted', World.print, hprinted]
      simp only [courseText, List.map_cons, String.join_cons, shownText, String.append_assoc]
  | @unshown w w' d ds u text hd htext hu =>
    obtain ⟨v₁, hd', hstore, hprinted⟩ := value_of_store_eq hd htext hv
    refine ⟨v₁, ?_, hstore, ?_⟩
    · rw [Evaluator.visit, Effect.bind_ok hd', Effect.bind_error (printResult_tooDeep hu v₁)]
      rfl
    · rw [hprinted, courseText_stopped]
  | failed hd htext =>
    obtain ⟨v₁, hd', hstore, hprinted⟩ := value_of_store_eq hd htext hv
    refine ⟨v₁, ?_, hstore, ?_⟩
    · rw [Evaluator.visit, Effect.bind_error hd']
      rfl
    · rw [hprinted, courseText_stopped]

/-- a course that nothing stops comes by the values of the forms -/
theorem Course.each_eq (h : Course limits root w forms results none w') :
    (Datum.value limits).each root forms w = (.ok (results.map Prod.snd), w') := by
  generalize hstop : (none : Option (String × Fault)) = stop at h
  induction h with
  | done => rfl
  | shown hd _ _ _ ih =>
    rw [Evaluator.each, Effect.bind_ok hd, Effect.bind_ok (ih hstop)]
    rfl
  | unshown => cases hstop
  | failed => cases hstop

/-- the world that a run of a program text leaves -/
def lastWorld (s : Surroundings) (prompt source : String) : World :=
  match Session.start s .prelude (World.empty.print prompt) with
  | (.error _, w) => w
  | (.ok root, w) => (printProgram s.limits root source w).2

/-- a run of the shell follows the course of its program -/
theorem Course.runProgram_eq {s : Surroundings} {source : String} {w₁ : World}
    (h : Course s.limits root w₁ forms results stop w') (hstart : Session.start s .prelude World.empty = (.ok root, w))
    (hread : Program.read s.limits source w = (.ok forms, w₁)) (prompt : String) :
    let r := runProgram s prompt source
    r.output = prompt ++ w.printed ++ courseText results stop ∧ (lastWorld s prompt source).store = w'.store ∧
      r.ending = match stop with
        | none => .done
        | some (_, fault) => .failed fault := by
  intro r
  obtain ⟨v, hstart', hstore, hprinted⟩ := Session.start_after hstart prompt
  obtain ⟨hresult, -, -⟩ := (Program.read_appends s.limits source).outcome hstore
  rw [hread] at hresult
  have hread' : Program.read s.limits source v = (.ok forms, (Program.read s.limits source v).2) := Prod.ext hresult rfl
  obtain ⟨hkeeps, hkeeps'⟩ := Program.read_keeps hread'
  obtain ⟨v', heach, hstore', hprinted'⟩ := h.printEach_eq
    (v := (Program.read s.limits source v).2) (by rw [hkeeps, hstore, (Program.read_keeps hread).1])
  have hprogram : printProgram s.limits root source v = (outcome stop, v') := by
    rw [printProgram, Effect.bind_ok hread', heach]
  have hlast : lastWorld s prompt source = v' := by
    rw [lastWorld, hstart']
    simp only [hprogram]
  have houtput : v'.printed = prompt ++ w.printed ++ courseText results stop := by
    rw [hprinted', hkeeps', hprinted]
  cases stop with
  | none =>
    have hr : r = ⟨v'.printed, v'.notes.toList, .done⟩ := runProgram_of_ok hstart' hprogram
    rw [hr, hlast]
    exact ⟨houtput, hstore', rfl⟩
  | some x =>
    have hr : r = ⟨v'.printed, v'.notes.toList, .failed x.2⟩ := runProgram_of_error hstart' hprogram
    rw [hr, hlast]
    exact ⟨houtput, hstore', rfl⟩

end Shell

/-- without a level no notes are shown -/
theorem Shell.Report.noteLines_of_unset {settings : Settings} (h : settings.noteLevel = none) (r : Shell.Report) :
    r.noteLines settings = [] := by
  have hshows : settings.showsNotes = false := by
    rw [Settings.showsNotes, Settings.level, h]
    decide
  rw [noteLines, hshows]
  rfl

/-- **The shell shows the course of its program.** Let no level of notes be set, let a new session load its prelude and
read the text of the program. Then the forms have a course in the session. If nothing stops it, the output is the
prompt, what the prelude printed, and for each form what it printed and the line with its value; the status is 0, and
the values are those of the text that is run in the session. If a form stops it, the output ends with what that form
printed, and its fault is reported with the status 1. Either way the frames are left as the course leaves them, so
nothing is evaluated after a form that stops it. -/
theorem shell_shows_course {s : Surroundings} {args : List String} {input prompt source : String} {root : FrameId}
    {w w₁ : World} {forms : List Datum} (hprogram : Shell.program? s args input = some (prompt, source))
    (hlevel : s.settings.noteLevel = none) (hstart : Session.start s .prelude World.empty = (.ok root, w))
    (hread : Program.read s.limits source w = (.ok forms, w₁)) :
    let r := Shell.run s args input
    (∃ results stop w', Shell.Course s.limits root w₁ forms results stop w') ∧
    (∀ results w', Shell.Course s.limits root w₁ forms results none w' →
      r.output = prompt ++ w.printed ++ String.join (results.map Shell.shownText) ∧
      r.status? = some 0 ∧ r.errorOutput s.settings = "" ∧ (Shell.lastWorld s prompt source).store = w'.store ∧
      Program.run s.limits root source w = (.ok (results.map Prod.snd), w')) ∧
    (∀ results text fault w', Shell.Course s.limits root w₁ forms results (some (text, fault)) w' →
      r.output = prompt ++ w.printed ++ String.join (results.map Shell.shownText) ++ text ∧
      r.status? = some 1 ∧ r.errorOutput s.settings = "Error: " ++ fault.message ++ "\n" ∧
      (Shell.lastWorld s prompt source).store = w'.store) := by
  intro r
  have hrun : r = Shell.runProgram s prompt source := Shell.run_of_program? hprogram
  have hnotes : r.noteLines s.settings = [] := Shell.Report.noteLines_of_unset hlevel r
  refine ⟨Shell.exists_course s.limits root w₁ forms, fun results w' h => ?_, fun results text fault w' h => ?_⟩
  · obtain ⟨houtput, hstore, hending⟩ := h.runProgram_eq hstart hread prompt
    rw [← hrun] at houtput hending
    refine ⟨?_, ?_, ?_, hstore, ?_⟩
    · rw [houtput, Shell.courseText, Option.map_none, Option.getD_none, String.append_empty]
    · rw [Shell.Report.status?, hending]
    · rw [Shell.Report.errorOutput, hnotes, Shell.Report.faultLines, hending]
      rfl
    · rw [Program.run, Effect.bind_ok hread, h.each_eq]
  · obtain ⟨houtput, hstore, hending⟩ := h.runProgram_eq hstart hread prompt
    rw [← hrun] at houtput hending
    refine ⟨?_, ?_, ?_, hstore⟩
    · rw [houtput, Shell.courseText, Option.map_some, Option.getD_some, ← String.append_assoc]
    · rw [Shell.Report.status?, hending]
    · rw [Shell.Report.errorOutput, hnotes, Shell.Report.faultLines, hending]
      exact String.empty_append

/-- a prelude that prints, a form that prints, one that does not, and one that prints and fails in a call -/
theorem failing_form_ends_the_transcript :
    let s := Surroundings.withPrelude [("a.lisp", "(print 5) (define two (+ 1 1))")]
    let source := "(print two) (define f (lambda (x) (first (print x)))) (f two) (print 7)"
    let r := Shell.run s [] (source ++ "\n")
    ∃ root w forms w₁ results text fault w',
      Shell.program? s [] (source ++ "\n") = some ("Enter a Lisp program: ", source) ∧ s.settings.noteLevel = none ∧
      Session.start s .prelude World.empty = (.ok root, w) ∧ Program.read s.limits source w = (.ok forms, w₁) ∧
      Shell.Course s.limits root w₁ forms results (some (text, fault)) w' ∧
      r.output = "Enter a Lisp program: " ++ w.printed ++ String.join (results.map Shell.shownText) ++ text ∧
      r.output = "Enter a Lisp program: 5\n2\nResult: 2\nResult: <lambda (x)>\n2\n" ∧
      r.status? = some 1 ∧ r.errorOutput s.settings = "Error: first expects a list, got 2\n" := by
  intro s source r
  have hprogram : Shell.program? s [] (source ++ "\n") = some ("Enter a Lisp program: ", source) := by decide +kernel
  have hstart : (Session.start s .prelude World.empty).1.toOption = some 0 := by decide +kernel
  have hread : (Program.read s.limits source (Session.start s .prelude World.empty).2).1.toOption.isSome = true := by
    decide +kernel
  have hstatus : r.status? = some 1 := by decide +kernel
  cases hs : Session.start s .prelude World.empty with
  | mk r₁ w =>
    cases hr : Program.read s.limits source w with
    | mk r₂ w₁ =>
      rw [hs] at hstart hread
      rw [hr] at hread
      cases r₁ with
      | error e => cases hstart
      | ok root =>
        cases r₂ with
        | error e => cases hread
        | ok forms =>
          obtain ⟨⟨results, stop, w', hcourse⟩, hdone, hstopped⟩ := shell_shows_course hprogram rfl hs hr
          cases stop with
          | none =>
            rw [(hdone results w' hcourse).2.1] at hstatus
            cases hstatus
          | some x =>
            obtain ⟨text, fault⟩ := x
            obtain ⟨houtput, -, -, -⟩ := hstopped results text fault w' hcourse
            exact ⟨root, w, forms, w₁, results, text, fault, w', hprogram, rfl, rfl, hr, hcourse, houtput,
              by decide +kernel, hstatus, by decide +kernel⟩

/-- whether a run ended because something was nested too deeply -/
def Shell.Ending.isTooDeep : Shell.Ending → Bool
  | .failed .tooDeep => true
  | _ => false

theorem Shell.Report.of_isTooDeep {r : Shell.Report} {settings : Settings} (hlevel : settings.noteLevel = none)
    (h : r.ending.isTooDeep = true) :
    r.status? = some 1 ∧ r.errorOutput settings = "Error: maximum recursion depth exceeded\n" := by
  have hending : r.ending = .failed .tooDeep := by
    unfold Ending.isTooDeep at h
    split at h
    · assumption
    · cases h
  constructor
  · rw [status?, hending]
  · rw [errorOutput, noteLines_of_unset hlevel, faultLines, hending]
    decide

/-- a program whose last form has a value that is nested 1010 deep -/
def Shell.deepProgram : String :=
  "(define a (lambda (x) (0 (0 (0 (0 (0 (0 (0 (0 (0 (0 x)))))))))))) "
    ++ "(define b (lambda (x) (a (a (a (a (a (a (a (a (a (a x)))))))))))) "
    ++ "(a (b (b (b (b (b (b (b (b (b (b 1)))))))))))"

/-- no form of this program fails in a session, but a whole stack of 1000 frames does not let the value of the last one
be shown -/
theorem deep_value_ends_the_transcript :
    let s := Surroundings.withPrelude []
    let begun := Session.start s .prelude World.empty
    let values := Program.run s.limits 0 Shell.deepProgram begun.2
    let r := Shell.run s [Shell.deepProgram] ""
    begun.1.toOption = some 0 ∧ values.1.toOption.isSome = true ∧
      r.status? = some 1 ∧ r.errorOutput s.settings = "Error: maximum recursion depth exceeded\n" :=
  ⟨by decide +kernel, by decide +kernel, Shell.Report.of_isTooDeep rfl (by decide +kernel)⟩

end FrameLisp
