/-
What the level of notes changes: the notes that are shown, and nothing else.

A run of the shell makes all its notes, and its report leaves out those that are not shown. A guarded run
(`Guarded.run`) asks at every place that makes notes whether they are shown, before it makes them: in the reader, at
every special form, for every file of the prelude, and where a session finds no prelude. `Effect.Guards` relates the
two: the guarded computation comes to the same and leaves the same world, but for the notes that are not shown. It
holds of an operation and itself, of notes and their guard (`guards_noteIf`), and goes step by step (`Guards.bind`).
From there it goes up through one level of evaluation (`Evaluator.perform_guards`) and evaluation to any depth
(`Datum.evaluate_guards`) to the loading of the prelude and the whole run.

Results:
- `Guarded.run_eq`: a guarded run reports what the run of the shell reports, less the notes that are not shown.
- `level_changes_notes_only`: at any two levels, guarded runs end alike, print the same, and show the same lines once
  the lines of notes are deleted.
-/
import FrameLisp.Proofs.Shell.Faults

namespace FrameLisp

/-- takes notes where they are shown -/
def Effect.noteIf {ε : Type} (shown : Bool) (notes : List Note) : Effect ε Unit :=
  if shown then noteAll notes else pure ()

/-- the same surroundings with this level of notes set, or with none -/
def Surroundings.atLevel (s : Surroundings) (level : Option String) : Surroundings :=
  { s with settings := { s.settings with noteLevel := level } }

/-! ## Guarded runs -/

namespace Guarded

/-- the value of a datum in a frame, as `Datum.evaluate` finds it -/
def evaluate (shown : Bool) (room : Nat) : Nat → Evaluator
  | 0 => fun _ _ => Effect.fail .tooDeep
  | depth + 1 => fun d frame => do
    Effect.noteIf shown d.entered
    d.shape.perform room (evaluate shown room depth) frame

/-- a datum evaluated within the limits -/
def value (shown : Bool) (limits : Limits) : Evaluator := evaluate shown limits.display limits.evaluation

/-- the forms of a text -/
def read (shown : Bool) (limits : Limits) (source : String) : Run (List Datum) := do
  let tokens := Token.scan source
  if Token.nestedWithin limits.reading tokens then
    let forms := Datum.readAll tokens
    Effect.noteIf shown (Program.mismatches tokens)
    Effect.noteIf shown [.parsed forms]
    pure forms
  else
    Effect.noteIf shown ((Token.strays 0 0 (Token.within limits.reading 0 tokens)).map .skipped)
    Effect.fail .tooDeep

/-- evaluates the forms of a text and does something with each value -/
def runWith (shown : Bool) (limits : Limits) (use : Datum → Run Unit) (frame : FrameId) (source : String) :
    Run Unit := do
  let forms ← read shown limits source
  (value shown limits).visit frame use forms

/-- evaluates the programs of a directory one after another -/
def loadEach (shown : Bool) (s : Surroundings) (frame : FrameId) (directory : Path) : List String → Load Unit
  | [] => pure ()
  | name :: names => do
    let file := directory.entry name
    Effect.noteIf shown [.loading file]
    let source ← Effect.ofExcept (Prelude.sourceOf s file)
    (runWith shown s.limits Evaluator.ignore frame source).mapFault .program
    loadEach shown s frame directory names

/-- loads the prelude into a frame -/
def load (shown : Bool) (s : Surroundings) (frame : FrameId) : Load Unit := do
  let directory ← Effect.ofExcept (Prelude.directory s)
  match ← Effect.ofExcept (Prelude.lookup s directory) with
  | some (.directory entries _) => loadEach shown s frame directory (Prelude.programs entries)
  | _ => Effect.fail (.missing directory)

/-- loads the prelude into a frame if its directory is there -/
def loadIfPresent (shown : Bool) (s : Surroundings) (frame : FrameId) : Load Unit := fun w =>
  match load shown s frame w with
  | (.error (.missing path), w') => Effect.noteIf shown [.noPrelude (LoadFault.missing path).message] w'
  | other => other

/-- starts a session with the prelude and gives its frame -/
def start (shown : Bool) (s : Surroundings) : Load FrameId := do
  let root ← Effect.newRoot
  loadIfPresent shown s root
  pure root

/-- runs a program text in a new session, after `prompt` was printed -/
def runProgram (s : Surroundings) (prompt source : String) : Shell.Report :=
  let shown := s.settings.showsNotes
  match start shown s (World.empty.print prompt) with
  | (.error fault, w) => ⟨w.printed, w.notes.toList, .escaped fault⟩
  | (.ok root, w) =>
    match runWith shown s.limits (Shell.printResult s.limits) root source w with
    | (.error fault, w) => ⟨w.printed, w.notes.toList, .failed fault⟩
    | (.ok (), w) => ⟨w.printed, w.notes.toList, .done⟩

/-- runs the program text of the arguments or, without arguments, of the input -/
def run (s : Surroundings) (args : List String) (input : String) : Shell.Report :=
  if args.isEmpty then
    let prompt := s.settings.promptText
    match Shell.firstLine? input with
    | none => ⟨prompt, [], .done⟩
    | some source => runProgram s prompt source
  else runProgram s "" (" ".intercalate args)

end Guarded

/-! ## Guards, step by step -/

/-- the world without the notes that are not shown -/
def World.guarded (shown : Bool) (w : World) : World := { w with notes := if shown then w.notes else #[] }

namespace Effect

variable {ε ε' α β : Type} {shown : Bool}

/-- in the same world without the notes that are not shown, `y` comes to what `x` comes to, and leaves the world that
`x` leaves without the notes that are not shown -/
def Guards (shown : Bool) (x y : Effect ε α) : Prop := Coupled (fun w v => v = w.guarded shown) Eq Eq x y

theorem guards_iff {x y : Effect ε α} :
    Guards shown x y ↔ ∀ w, y (w.guarded shown) = ((x w).1, (x w).2.guarded shown) := by
  rw [Guards, coupled_eq_iff]
  constructor
  · intro h w
    obtain ⟨hresult, hworld⟩ := h w _ rfl
    exact Prod.ext hresult.symm hworld
  · rintro h w _ rfl
    rw [h w]
    exact ⟨rfl, rfl⟩

theorem Guards.bind {x y : Effect ε α} {next next' : α → Effect ε β} (h : Guards shown x y)
    (hnext : ∀ a, Guards shown (next a) (next' a)) : Guards shown (x >>= next) (y >>= next') :=
  Coupled.bind h fun a _ hab => hab ▸ hnext a

theorem Guards.mapFault {x y : Effect ε α} (rename : ε → ε') (h : Guards shown x y) :
    Guards shown (x.mapFault rename) (y.mapFault rename) :=
  Coupled.mapFault h fun _ _ he => congrArg rename he

theorem guards_pure (a : α) : Guards shown (pure a : Effect ε α) (pure a) := coupled_pure rfl

theorem guards_fail (e : ε) : Guards shown (fail e : Effect ε α) (fail e) := coupled_fail rfl

theorem guards_ofExcept (r : Except ε α) : Guards shown (ofExcept r) (ofExcept r) := guards_iff.2 fun _ => rfl

theorem guards_newFrame (bindings : Bindings) (outer : Option FrameId) :
    Guards shown (newFrame bindings outer : Effect ε FrameId) (newFrame bindings outer) := guards_iff.2 fun _ => rfl

theorem guards_define (frame : FrameId) (name : String) (value : Datum) :
    Guards shown (define frame name value : Effect ε Unit) (define frame name value) := guards_iff.2 fun _ => rfl

theorem guards_print (text : String) : Guards shown (print text : Effect ε Unit) (print text) :=
  guards_iff.2 fun _ => rfl

/-- where notes are made, the guard asks first -/
theorem guards_noteIf (notes : List Note) : Guards shown (noteAll notes : Effect ε Unit) (noteIf shown notes) := by
  rw [guards_iff]
  intro w
  cases shown with
  | true => rw [noteIf, if_pos rfl, noteAll_apply, noteAll_apply]; rfl
  | false => rw [noteIf, if_neg Bool.false_ne_true, noteAll_apply]; rfl

end Effect

open Effect

theorem Run.lookup_guards {shown : Bool} (frame : FrameId) (name : String) :
    Guards shown (Run.lookup frame name) (Run.lookup frame name) := by
  rw [guards_iff]
  intro w
  cases hname : w.store.lookup? frame name with
  | some v =>
    rw [Run.lookup_ok hname]
    exact Run.lookup_ok hname
  | none =>
    rw [Run.lookup_error hname]
    exact Run.lookup_error hname

theorem Builtin.call_guards {shown : Bool} (room : Nat) (b : Builtin) (args : List Datum) :
    Guards shown (b.call room args) (b.call room args) := by
  rw [guards_iff]
  intro w
  by_cases hshows : b.showsWithin room args = true
  · rw [call_of_showsWithin hshows, call_of_showsWithin hshows]
    rfl
  · rw [call, call, if_neg hshows, if_neg hshows]

/-! ## Evaluation -/

namespace Evaluator

variable {shown : Bool} {ev ev' : Evaluator} (hev : ∀ d frame, Guards shown (ev d frame) (ev' d frame))

include hev

theorem each_guards (frame : FrameId) (ds : List Datum) : Guards shown (ev.each frame ds) (ev'.each frame ds) := by
  induction ds with
  | nil => exact guards_pure []
  | cons d ds ih =>
    refine (hev d frame).bind fun value => ?_
    exact ih.bind fun values => guards_pure (value :: values)

theorem sequence_guards (frame : FrameId) (last : Datum) (ds : List Datum) :
    Guards shown (ev.sequence frame last ds) (ev'.sequence frame last ds) := by
  induction ds generalizing last with
  | nil => exact guards_pure last
  | cons d ds ih => exact (hev d frame).bind fun value => ih value

theorem fill_guards (frame : FrameId) (bindings : List Datum) :
    Guards shown (ev.fill frame bindings) (ev'.fill frame bindings) := by
  induction bindings with
  | nil => exact guards_pure ()
  | cons b bindings ih =>
    rw [fill, fill]
    cases binding? b with
    | none => exact guards_fail _
    | some binding =>
      refine (hev binding.2 frame).bind fun value => ?_
      exact (guards_define frame binding.1 value).bind fun _ => ih

theorem visit_guards {use : Datum → Run Unit} (huse : ∀ v, Guards shown (use v) (use v)) (frame : FrameId)
    (ds : List Datum) : Guards shown (ev.visit frame use ds) (ev'.visit frame use ds) := by
  induction ds with
  | nil => exact guards_pure ()
  | cons d ds ih =>
    refine (hev d frame).bind fun value => ?_
    exact (huse value).bind fun _ => ih

theorem call_guards (room : Nat) (function : Datum) (args : List Datum) :
    Guards shown (ev.call room function args) (ev'.call room function args) := by
  cases function with
  | closure params body captured =>
    refine (guards_newFrame _ _).bind fun frame => ?_
    exact sequence_guards hev frame .absent body
  | builtin b => exact b.call_guards room args
  | atom | list | absent | number | text => exact guards_fail _

/-- one level of evaluation, once the evaluation of its parts is guarded -/
theorem perform_guards (room : Nat) (frame : FrameId) (shape : Shape) :
    Guards shown (shape.perform room ev frame) (shape.perform room ev' frame) := by
  cases shape with
  | value v => exact guards_pure v
  | name x => exact Run.lookup_guards frame x
  | items head args =>
    refine (hev head frame).bind fun function => ?_
    refine (each_guards hev frame args).bind fun values => ?_
    split
    · exact call_guards hev room function values
    · exact guards_pure _
  | define x body =>
    refine (hev body frame).bind fun value => ?_
    exact (guards_define frame x value).bind fun _ => guards_pure value
  | conditional condition consequent alternative =>
    refine (hev condition frame).bind fun value => ?_
    split
    · exact hev consequent frame
    · cases alternative with
      | none => exact guards_pure _
      | some alternative => exact hev alternative frame
  | block bindings body =>
    refine (guards_newFrame [] (some frame)).bind fun inner => ?_
    exact (fill_guards hev inner bindings).bind fun _ => hev body inner
  | function params body => exact guards_pure _
  | malformed fault => exact guards_fail fault

end Evaluator

theorem Datum.evaluate_guards (shown : Bool) (room depth : Nat) (d : Datum) (frame : FrameId) :
    Guards shown (d.evaluate room depth frame) (Guarded.evaluate shown room depth d frame) := by
  induction depth generalizing d frame with
  | zero => exact guards_fail _
  | succ depth ih =>
    rw [evaluate_succ, evaluateWith_eq]
    refine (guards_noteIf d.entered).bind fun _ => ?_
    exact Evaluator.perform_guards ih room frame d.shape

/-! ## Texts, the prelude and the shell -/

namespace Guarded

variable (shown : Bool)

theorem read_guards (limits : Limits) (source : String) :
    Guards shown (Program.read limits source) (read shown limits source) := by
  unfold Program.read read
  dsimp only
  split
  · refine (guards_noteIf _).bind fun _ => ?_
    exact (guards_noteIf [_]).bind fun _ => guards_pure _
  · exact (guards_noteIf _).bind fun _ => guards_fail _

theorem runWith_guards (limits : Limits) {use : Datum → Run Unit} (huse : ∀ v, Guards shown (use v) (use v))
    (frame : FrameId) (source : String) :
    Guards shown (Program.runWith limits use frame source) (runWith shown limits use frame source) := by
  refine (read_guards shown limits source).bind fun forms => ?_
  exact Evaluator.visit_guards (Datum.evaluate_guards shown limits.display limits.evaluation) huse frame forms

theorem loadEach_guards (s : Surroundings) (frame : FrameId) (directory : Path) (names : List String) :
    Guards shown (Prelude.loadEach s frame directory names) (loadEach shown s frame directory names) := by
  induction names with
  | nil => exact guards_pure ()
  | cons name names ih =>
    refine (guards_noteIf [_]).bind fun _ => ?_
    refine (guards_ofExcept _).bind fun source => ?_
    rw [Prelude.evaluate_eq]
    refine Guards.bind ?_ fun _ => ih
    exact (runWith_guards shown s.limits (fun _ => guards_pure ()) frame source).mapFault LoadFault.program

theorem load_guards (s : Surroundings) (frame : FrameId) :
    Guards shown (Prelude.load s frame) (load shown s frame) := by
  unfold Prelude.load load
  refine (guards_ofExcept _).bind fun directory => ?_
  refine (guards_ofExcept _).bind fun found => ?_
  rcases found with _ | (bytes | ⟨entries, searchable⟩)
  · exact guards_fail _
  · exact guards_fail _
  · exact loadEach_guards shown s frame directory _

theorem loadIfPresent_guards (s : Surroundings) (frame : FrameId) :
    Guards shown (Prelude.loadIfPresent s frame) (loadIfPresent shown s frame) := by
  rw [guards_iff]
  intro w
  have hload := guards_iff.1 (load_guards shown s frame) w
  rw [Prelude.loadIfPresent, loadIfPresent, hload]
  cases Prelude.load s frame w with
  | mk r w' =>
    cases r with
    | ok u => rfl
    | error e =>
      cases e with
      | missing path => exact guards_iff.1 (guards_noteIf [_]) w'
      | noPath | refused | isDirectory | undecodable | program => rfl

theorem start_guards (s : Surroundings) : Guards shown (Session.start s .prelude) (start shown s) := by
  refine (guards_newFrame _ _).bind fun root => ?_
  exact (loadIfPresent_guards shown s root).bind fun _ => guards_pure root

theorem printResult_guards (limits : Limits) (v : Datum) :
    Guards shown (Shell.printResult limits v) (Shell.printResult limits v) := by
  unfold Shell.printResult Datum.displayed
  split
  · exact (guards_pure _).bind fun text => guards_print _
  · exact (guards_fail _).bind fun text => guards_print _

theorem printProgram_guards (limits : Limits) (frame : FrameId) (source : String) :
    Guards shown (Shell.printProgram limits frame source)
      (runWith shown limits (Shell.printResult limits) frame source) := by
  rw [Shell.printProgram_eq]
  exact runWith_guards shown limits (printResult_guards shown limits) frame source

end Guarded

namespace Shell

/-- the report without the notes that are not shown -/
def Report.shownAt (settings : Settings) (r : Report) : Report :=
  { r with notes := if settings.showsNotes then r.notes else [] }

/-- the lines of the error output; a line is what one note or one fault has to say -/
def Report.errorLines (settings : Settings) (r : Report) : List String := r.noteLines settings ++ r.faultLines

theorem Report.errorOutput_eq (settings : Settings) (r : Report) :
    r.errorOutput settings = String.join ((r.errorLines settings).map (· ++ "\n")) := rfl

/-- leaving out what is not shown leaves out nothing that is shown -/
theorem Report.errorLines_shownAt (settings : Settings) (r : Report) :
    (r.shownAt settings).errorLines settings = r.errorLines settings := by
  rw [errorLines, errorLines, noteLines, noteLines, shownAt]
  split <;> rfl

end Shell

theorem World.toList_notes_guarded (shown : Bool) (w : World) :
    (w.guarded shown).notes.toList = if shown then w.notes.toList else [] := by
  cases shown <;> rfl

namespace Guarded

theorem runProgram_eq (s : Surroundings) (prompt source : String) :
    runProgram s prompt source = (Shell.runProgram s prompt source).shownAt s.settings := by
  have hstart := guards_iff.1 (start_guards s.settings.showsNotes s) (World.empty.print prompt)
  have hempty : (World.empty.print prompt).guarded s.settings.showsNotes = World.empty.print prompt := by
    cases s.settings.showsNotes <;> rfl
  rw [hempty] at hstart
  rw [runProgram, Shell.runProgram, hstart]
  cases Session.start s .prelude (World.empty.print prompt) with
  | mk r w =>
    cases r with
    | error fault => simp only [World.toList_notes_guarded]; rfl
    | ok root =>
      simp only [guards_iff.1 (printProgram_guards _ s.limits root source) w]
      cases Shell.printProgram s.limits root source w with
      | mk r' w' => cases r' <;> simp only [World.toList_notes_guarded] <;> rfl

/-- **A guarded run is the run of the shell**, less the notes that are not shown -/
theorem run_eq (s : Surroundings) (args : List String) (input : String) :
    run s args input = (Shell.run s args input).shownAt s.settings := by
  rw [run, Shell.run]
  split
  · dsimp only
    cases Shell.firstLine? input with
    | none => rw [Shell.Report.shownAt, ite_self]
    | some source => exact runProgram_eq s _ source
  · exact runProgram_eq s _ _

end Guarded

/-! ## Lines of notes -/

namespace Note

/-- what the lines of notes start with: those of the reader, of special forms, of the prelude and of sessions -/
def openings : List String :=
  ["Skipping unmatched ')' at token ", "Unterminated list closed at end of input", "Parsed ", "Special form ",
    "Loading prelude file ", "No prelude loaded: "]

/-- whether a line of the error output is the line of a note -/
def isLine (line : String) : Bool := openings.any fun opening => opening.toList.isPrefixOf line.toList

/-- lines without those of notes -/
def deleteFrom (lines : List String) : List String := lines.filter fun line => !isLine line

theorem isLine_append {opening : String} (h : opening ∈ openings) (rest : String) :
    isLine (opening ++ rest) = true := by
  refine List.any_eq_true.2 ⟨opening, h, ?_⟩
  rw [List.isPrefixOf_iff_prefix, String.toList_append]
  exact List.prefix_append _ _

theorem isLine_text (n : Note) : isLine n.text = true := by
  cases n with
  | skipped place => exact isLine_append (by simp [openings]) (toString place)
  | unclosed => decide
  | parsed forms =>
    change isLine ("Parsed " ++ _ ++ _ ++ _) = true
    rw [String.append_assoc, String.append_assoc]
    exact isLine_append (by simp [openings]) _
  | entered form parts =>
    change isLine ("Special form " ++ _ ++ _ ++ _) = true
    rw [String.append_assoc, String.append_assoc]
    exact isLine_append (by simp [openings]) _
  | loading file => exact isLine_append (by simp [openings]) file.text
  | noPrelude reason => exact isLine_append (by simp [openings]) reason

/-- the line of a fault starts otherwise -/
theorem isLine_fault (message : String) : isLine ("Error: " ++ message) = false := by
  simp [isLine, openings, String.toList_append, List.isPrefixOf]

end Note

namespace Prelude

variable (s : Surroundings) (level : Option String)

theorem loadEach_atLevel (frame : FrameId) (directory : Path) (names : List String) :
    loadEach (s.atLevel level) frame directory names = loadEach s frame directory names := by
  have hsource (file : Path) : sourceOf (s.atLevel level) file = sourceOf s file := rfl
  have hlimits : (s.atLevel level).limits = s.limits := rfl
  induction names with
  | nil => rfl
  | cons name names ih => simp only [loadEach, hsource, hlimits, ih]

theorem loadIfPresent_atLevel (frame : FrameId) : loadIfPresent (s.atLevel level) frame = loadIfPresent s frame := by
  have hdirectory : directory (s.atLevel level) = directory s := rfl
  have hlookup (p : Path) : lookup (s.atLevel level) p = lookup s p := rfl
  have hload : load (s.atLevel level) frame = load s frame := by
    simp only [load, hdirectory, hlookup, loadEach_atLevel]
  funext w
  rw [loadIfPresent, loadIfPresent, hload]

end Prelude

namespace Shell

/-- deleting the lines of notes leaves the line of the fault, if there is one -/
theorem Report.deleteFrom_errorLines (settings : Settings) (r : Report) :
    Note.deleteFrom (r.errorLines settings) = r.faultLines := by
  have hnotes : Note.deleteFrom (r.noteLines settings) = [] := by
    refine List.filter_eq_nil_iff.2 fun line hline => ?_
    rw [noteLines] at hline
    split at hline
    · obtain ⟨n, -, rfl⟩ := List.mem_map.1 hline
      simp [n.isLine_text]
    · cases hline
  have hfault : Note.deleteFrom r.faultLines = r.faultLines := by
    refine List.filter_eq_self.2 fun line hline => ?_
    rw [faultLines] at hline
    split at hline
    · rw [List.mem_singleton.1 hline, Note.isLine_fault]
      rfl
    · cases hline
  rw [errorLines, Note.deleteFrom, List.filter_append]
  exact (congrArg₂ _ hnotes hfault).trans (List.nil_append _)

/-- the level is asked for when notes are shown, and nowhere else -/
theorem run_atLevel (s : Surroundings) (level : Option String) (args : List String) (input : String) :
    run (s.atLevel level) args input = run s args input := by
  have hstart : Session.start (s.atLevel level) .prelude = Session.start s .prelude := by
    simp only [Session.start, Prelude.loadIfPresent_atLevel]
  have hprompt : (s.atLevel level).settings.promptText = s.settings.promptText := rfl
  have hlimits : (s.atLevel level).limits = s.limits := rfl
  simp only [run, runProgram, hstart, hprompt, hlimits]

end Shell

/-- **The level of notes changes the notes that are shown, and nothing else.** Take two runs of the same program text in
the same surroundings, each guarded at a level of its own. They end alike, so with the same status or with the same
fault that escapes, and print the same. Once the lines of notes are deleted, the same lines are left of their error
outputs, and these are the line of the program's fault, if it has one. And what a guarded run reports and shows is what
the run of the shell at its level does, less the notes that are not shown. -/
theorem level_changes_notes_only (s : Surroundings) (args : List String) (input : String)
    (level level' : Option String) :
    let settings := fun level => (s.atLevel level).settings
    let r := fun level => Guarded.run (s.atLevel level) args input
    let left := fun level => Note.deleteFrom ((r level).errorLines (settings level))
    ((r level).ending = (r level').ending ∧ (r level).status? = (r level').status? ∧
      (r level).output = (r level').output ∧ left level = left level' ∧ left level = (r level).faultLines) ∧
    r level = (Shell.run (s.atLevel level) args input).shownAt (settings level) ∧
    (r level).errorOutput (settings level)
      = (Shell.run (s.atLevel level) args input).errorOutput (settings level) := by
  intro settings r left
  have hrun : ∀ level, r level = (Shell.run s args input).shownAt (settings level) := by
    intro level
    exact (Guarded.run_eq (s.atLevel level) args input).trans (by rw [Shell.run_atLevel])
  have hending : (r level).ending = (r level').ending := by
    rw [hrun, hrun]
    rfl
  have houtput : (r level).output = (r level').output := by
    rw [hrun, hrun]
    rfl
  have hstatus : (r level).status? = (r level').status? := by
    rw [Shell.Report.status?, Shell.Report.status?, hending]
  have hfault : (r level).faultLines = (r level').faultLines := by
    rw [Shell.Report.faultLines, Shell.Report.faultLines, hending]
  have hleft : ∀ level, left level = (r level).faultLines :=
    fun level => (r level).deleteFrom_errorLines (settings level)
  refine ⟨⟨hending, hstatus, houtput, ?_, hleft level⟩, Guarded.run_eq (s.atLevel level) args input, ?_⟩
  · rw [hleft, hleft, hfault]
  · rw [hrun, Shell.run_atLevel, Shell.Report.errorOutput_eq, Shell.Report.errorLines_shownAt]
    rfl

example :
    let notes (level : String) := (Guarded.run ((Surroundings.withPrelude []).atLevel level) [")"] "").notes
    (notes "Debug").map Note.text = ["Skipping unmatched ')' at token 0", "Parsed 0 expression(s): []"] ∧
      (notes "info").map Note.text = [] := by
  decide +kernel

end FrameLisp
