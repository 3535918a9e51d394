/-
Texts one after another.

A text is closed when it has an even number of quotation marks and leaves no list open. Neither a literal nor a list can
then reach from it into what follows, and once blanks keep the tokens apart, the forms of texts joined together are the
forms of each (`ofSource_joined`).

Results:
- `joined_texts_run_in_turn`: so to run the joined text is to run the texts one after another, with the same values or
  the same fault, the same frames and the same printed text; likewise for a prelude, be it one text or the files of a
  directory. All of this as far as the texts can be read: when one of them nests its lists beyond the limit of the
  reader, the joined text is refused before anything is evaluated.
Refutation:
- `joined_text_is_refused_whole`: the texts before one that cannot be read are run when they stand alone.
-/
import FrameLisp.Proofs.Reading.Tree
import FrameLisp.Proofs.Session.Output

namespace FrameLisp

open Effect Text

/-! ## Reading on after a closed text -/

namespace Datum

/-- a list that is closed within some tokens is read alike when others follow -/
theorem readList_append (items : List Datum) (outers : List (List Datum)) {front : List String}
    (h : Token.depthAfter (outers.length + 1) front = 0) (back : List String) :
    ∃ d rest, readList items outers front = (d, rest) ∧ readList items outers (front ++ back) = (d, rest ++ back) ∧
      Token.depthAfter 0 rest = 0 := by
  induction front generalizing items outers with
  | nil => cases h
  | cons t ts ih =>
    rw [Token.depthAfter_cons] at h
    rw [List.cons_append]
    by_cases hclose : t = ")"
    · subst hclose
      cases outers with
      | nil => exact ⟨_, ts, readList_close_last items ts, readList_close_last items _, h⟩
      | cons outer outers =>
        rw [readList_close, readList_close]
        exact ih _ _ h
    · by_cases hopen : t = "("
      · subst hopen
        rw [readList_open, readList_open]
        exact ih _ _ h
      · rw [readList_atom hopen hclose, readList_atom hopen hclose]
        have hstep : Token.depthStep (outers.length + 1) t = outers.length + 1 := by
          rw [Token.depthStep, if_neg hopen, if_neg hclose]
        exact ih _ _ (hstep ▸ h)

theorem read?_append {front rest : List String} {d : Datum} (h : Token.depthAfter 0 front = 0)
    (hread : read? front = some (d, rest)) (back : List String) :
    read? (front ++ back) = some (d, rest ++ back) ∧ Token.depthAfter 0 rest = 0 := by
  induction front with
  | nil => cases hread
  | cons t ts ih =>
    rw [Token.depthAfter_cons] at h
    simp only [read?, List.cons_append] at hread ⊢
    by_cases hclose : t = ")"
    · rw [if_pos hclose] at hread ⊢
      rw [hclose] at h
      exact ih h hread
    · rw [if_neg hclose] at hread ⊢
      by_cases hopen : t = "("
      · rw [if_pos hopen] at hread ⊢
        rw [hopen] at h
        obtain ⟨d', rest', hfront, happend, hrest⟩ := readList_append [] [] h back
        rw [hfront] at hread
        cases hread
        exact ⟨congrArg some happend, hrest⟩
      · have hstep : Token.depthStep 0 t = 0 := by rw [Token.depthStep, if_neg hopen, if_neg hclose]
        rw [if_neg hopen] at hread ⊢
        rw [hstep] at h
        cases hread
        exact ⟨rfl, h⟩

/-- the forms of tokens that leave no list open come first, whatever follows -/
theorem readAll_append {front : List String} (h : Token.depthAfter 0 front = 0) (back : List String) :
    readAll (front ++ back) = readAll front ++ readAll back := by
  induction front using reading_induct with
  | nil => rw [readAll_nil, List.nil_append, List.nil_append]
  | stray front ih => rw [List.cons_append, readAll_stray, readAll_stray, ih h]
  | form front d rest hsome ih =>
    obtain ⟨happend, hrest⟩ := read?_append h hsome back
    rw [readAll_of_some hsome, readAll_of_some happend, ih hrest, List.cons_append]

end Datum

/-! ## Joined texts -/

namespace Program

/-- a text that leaves neither a literal nor a list open -/
structure Closed (source : String) : Prop where
  quotes : source.toList.count '"' % 2 = 0
  lists : Token.depthAfter 0 (Token.scan source) = 0

/-- texts with a separator behind each of them, and a last text -/
def joined : List (String × String) → String → String
  | [], last => last
  | (text, separator) :: front, last => text ++ separator ++ joined front last

/-- what keeps joined texts apart: blanks, and at least one -/
def IsSeparator (s : String) : Prop := s ≠ "" ∧ IsGap s

/-- the texts without their separators -/
def texts (front : List (String × String)) (last : String) : List String := front.map Prod.fst ++ [last]

/-- whether a text can be read at all -/
def readable (limits : Limits) (source : String) : Bool := Token.nestedWithin limits.reading (Token.scan source)

theorem texts_cons (p : String × String) (front : List (String × String)) (last : String) :
    texts (p :: front) last = p.1 :: texts front last := rfl

section

variable {front : List (String × String)} (hclosed : ∀ p ∈ front, Closed p.1) (hgaps : ∀ p ∈ front, IsSeparator p.2)

include hclosed hgaps

/-- the forms of joined texts are the forms of each of them -/
theorem ofSource_joined (last : String) :
    Datum.ofSource (joined front last) = (texts front last).flatMap Datum.ofSource := by
  induction front with
  | nil => simp [joined, texts]
  | cons p front ih =>
    rw [List.forall_mem_cons] at hclosed hgaps
    have hscan := Token.scan_append hclosed.1.quotes hgaps.1.1 hgaps.1.2 (joined front last)
    have hrest := ih hclosed.2 hgaps.2
    rw [Datum.ofSource] at hrest
    rw [joined, Datum.ofSource, hscan, Datum.readAll_append hclosed.1.lists, hrest, texts_cons, List.flatMap_cons,
      Datum.ofSource]

theorem readable_joined (limits : Limits) (last : String) :
    readable limits (joined front last) = (texts front last).all (readable limits) := by
  induction front with
  | nil => simp [joined, texts]
  | cons p front ih =>
    rw [List.forall_mem_cons] at hclosed hgaps
    have hscan := Token.scan_append hclosed.1.quotes hgaps.1.1 hgaps.1.2 (joined front last)
    have hrest := ih hclosed.2 hgaps.2
    rw [readable] at hrest
    rw [joined, readable, hscan, Token.nestedWithin_append hclosed.1.lists, hrest, texts_cons, List.all_cons, readable]

end

/-! ## Running them -/

variable {limits : Limits} {source : String}

/-- a text is run by reading it and evaluating what was read -/
theorem run_agree_bind (frame : FrameId) {x : Run (List Datum)} (h : Agree (read limits source) x) :
    Agree (run limits frame source) (x >>= (Datum.value limits).each frame) := by
  rw [run]
  refine h.bind fun forms => ?_
  exact (Evaluator.each_appends limits frame forms).agree

theorem run_agree_of_readable (frame : FrameId) (h : readable limits source = true) :
    Agree (run limits frame source) ((Datum.value limits).each frame (Datum.ofSource source)) := by
  have hread : Agree (read limits source) (pure (Datum.ofSource source)) := by
    rw [read]
    simp only [readable] at h
    simp only [if_pos h]
    exact agree_noteAll _ (agree_note _ (agree_pure _))
  have hrun := run_agree_bind frame hread
  rwa [pure_bind] at hrun

theorem run_agree_of_not_readable (frame : FrameId) (h : readable limits source = false) :
    Agree (run limits frame source) (fail .tooDeep) := by
  have hread : Agree (read limits source) (fail .tooDeep) := by
    rw [read]
    simp only [readable] at h
    simp only [h, Bool.false_eq_true, if_false]
    exact agree_noteAll _ (agree_fail _)
  have hrun := run_agree_bind frame hread
  rwa [fail_bind] at hrun

/-- texts run one after another in a frame -/
def runInTurn (limits : Limits) (frame : FrameId) : List String → Run (List Datum)
  | [] => pure []
  | source :: sources => do
    let values ← run limits frame source
    let others ← runInTurn limits frame sources
    pure (values ++ others)

/-- texts that can be read are run by evaluating all their forms -/
theorem runInTurn_agree (frame : FrameId) {sources : List String}
    (h : ∀ source ∈ sources, readable limits source = true) :
    Agree (runInTurn limits frame sources) ((Datum.value limits).each frame (sources.flatMap Datum.ofSource)) := by
  induction sources with
  | nil => exact agree_pure _
  | cons source sources ih =>
    rw [List.forall_mem_cons] at h
    rw [runInTurn, List.flatMap_cons, Evaluator.each_append]
    refine (run_agree_of_readable frame h.1).bind fun values => ?_
    exact (ih h.2).bind fun others => agree_pure _

/-- to run joined texts is to run them in turn, if they all can be read -/
theorem run_joined_agree {front : List (String × String)} (hclosed : ∀ p ∈ front, Closed p.1)
    (hgaps : ∀ p ∈ front, IsSeparator p.2) (limits : Limits) (last : String) (frame : FrameId) :
    Agree (run limits frame (joined front last))
      (if (texts front last).all (readable limits) then runInTurn limits frame (texts front last)
        else fail .tooDeep) := by
  have hreadable := readable_joined hclosed hgaps limits last
  by_cases hall : (texts front last).all (readable limits) = true
  · rw [if_pos hall]
    have hrun := run_agree_of_readable frame (hreadable.trans hall)
    rw [ofSource_joined hclosed hgaps] at hrun
    exact hrun.trans (runInTurn_agree frame (List.all_eq_true.1 hall)).symm
  · rw [if_neg hall]
    exact run_agree_of_not_readable frame (hreadable.trans (Bool.eq_false_iff.2 hall))

end Program

/-! ## Preludes -/

namespace Prelude

/-- texts evaluated one after another in a frame -/
def evaluateInTurn (limits : Limits) (frame : FrameId) : List String → Load Unit
  | [] => pure ()
  | source :: sources => do
    evaluate limits frame source
    evaluateInTurn limits frame sources

/-- a prelude runs its texts and keeps no values -/
theorem evaluateInTurn_eq (limits : Limits) (frame : FrameId) (sources : List String) :
    evaluateInTurn limits frame sources = (do
      let _ ← Program.runInTurn limits frame sources
      pure ()).mapFault .program := by
  induction sources with
  | nil => rfl
  | cons source sources ih =>
    rw [evaluateInTurn, ih, evaluate, Program.runInTurn]
    simp only [bind_assoc, pure_bind, mapFault_bind, mapFault_pure]

/-- to evaluate a text for a prelude is to run it and to drop the values -/
theorem evaluate_agree {limits : Limits} {frame : FrameId} {source : String} {x : Run (List Datum)}
    (h : Agree (Program.run limits frame source) x) :
    Agree (evaluate limits frame source) ((do
      let _ ← x
      pure ()).mapFault .program) := by
  rw [evaluate]
  refine Agree.mapFault _ ?_
  refine h.bind fun _ => ?_
  exact agree_pure ()

/-- a file with a text, in a directory -/
def Holds (s : Surroundings) (directory : Path) (name source : String) : Prop :=
  sourceOf s (directory.entry name) = .ok source

/-- to load files is to evaluate their texts -/
theorem loadEach_agree {s : Surroundings} (frame : FrameId) {directory : Path} {names sources : List String}
    (h : List.Forall₂ (Holds s directory) names sources) :
    Agree (loadEach s frame directory names) (evaluateInTurn s.limits frame sources) := by
  induction h with
  | nil => exact agree_pure _
  | @cons name source names sources hsource _ ih =>
    have hevaluate : Agree (evaluate s.limits frame source) (evaluate s.limits frame source) :=
      (evaluate_appends s.limits frame source).agree
    rw [loadEach, evaluateInTurn]
    simp only [show sourceOf s (directory.entry name) = .ok source from hsource, ofExcept_ok, pure_bind]
    exact agree_note _ (hevaluate.bind fun _ => ih)

theorem evaluate_joined_agree {front : List (String × String)} (hclosed : ∀ p ∈ front, Program.Closed p.1)
    (hgaps : ∀ p ∈ front, Program.IsSeparator p.2) (limits : Limits) (last : String) (frame : FrameId) :
    Agree (evaluate limits frame (Program.joined front last))
      (if (Program.texts front last).all (Program.readable limits) then
        evaluateInTurn limits frame (Program.texts front last)
      else fail (.program .tooDeep)) := by
  have hrun := Program.run_joined_agree hclosed hgaps limits last frame
  by_cases hall : (Program.texts front last).all (Program.readable limits) = true
  · rw [if_pos hall] at hrun ⊢
    rw [evaluateInTurn_eq]
    exact evaluate_agree hrun
  · rw [if_neg hall] at hrun ⊢
    have hrefused := evaluate_agree hrun
    rwa [fail_bind, mapFault_fail] at hrefused

end Prelude

/-- **Joined texts run in turn.** Let all of some texts but the last be closed, and join them with blanks between. The
forms of the joined text are those of the texts in turn. If the lists of every text are nested within the limit, to run
the joined text is to run the texts in turn up to the first fault: with the same values or fault, the same frames and
the same printed text; and so it is for a prelude, whether its texts are given or are files. If the lists of some text
are nested more deeply, the joined text is refused and nothing of it is evaluated. -/
theorem joined_texts_run_in_turn {front : List (String × String)} (hclosed : ∀ p ∈ front, Program.Closed p.1)
    (hgaps : ∀ p ∈ front, Program.IsSeparator p.2) (limits : Limits) (last : String) (frame : FrameId) :
    let source := Program.joined front last
    let sources := Program.texts front last
    let readable := sources.all (Program.readable limits)
    Datum.ofSource source = sources.flatMap Datum.ofSource ∧ Program.readable limits source = readable ∧
      Agree (Program.run limits frame source)
        (if readable then Program.runInTurn limits frame sources else fail .tooDeep) ∧
      Agree (Prelude.evaluate limits frame source)
        (if readable then Prelude.evaluateInTurn limits frame sources else fail (.program .tooDeep)) ∧
      ∀ (s : Surroundings) (directory : Path) (entries : List (String × FileTree)) (searchable : Bool),
        s.limits = limits → Prelude.directory s = .ok directory →
        s.files.find directory = .ok (some (.directory entries searchable)) →
        List.Forall₂ (Prelude.Holds s directory) (Prelude.programs entries) sources →
        Agree (Prelude.evaluate limits frame source)
          (if readable then Prelude.load s frame else fail (.program .tooDeep)) := by
  intro source sources readable
  have hevaluate := Prelude.evaluate_joined_agree hclosed hgaps limits last frame
  refine ⟨Program.ofSource_joined hclosed hgaps last, Program.readable_joined hclosed hgaps limits last,
    Program.run_joined_agree hclosed hgaps limits last frame, hevaluate, ?_⟩
  rintro s directory entries searchable rfl hdirectory hfind hfiles
  have hload : Agree (Prelude.load s frame) (Prelude.evaluateInTurn s.limits frame sources) := by
    rw [Prelude.load_eq hdirectory hfind]
    exact Prelude.loadEach_agree frame hfiles
  by_cases hall : readable = true
  · rw [if_pos hall] at hevaluate ⊢
    exact hevaluate.trans hload.symm
  · rw [if_neg hall] at hevaluate ⊢
    exact hevaluate

/-- a closing parenthesis too many and a literal that holds one do not reach into the next text, and the last text may
leave a literal and a list open -/
theorem stray_and_open_texts_run_in_turn :
    let front := [("(define f (lambda (s) s)) )", "\n"), ("\"a )\"", " \t")]
    let last := "(f \"b"
    (∀ p ∈ front, Program.Closed p.1) ∧ (∀ p ∈ front, Program.IsSeparator p.2) ∧
      Program.joined front last = "(define f (lambda (s) s)) )\n\"a )\" \t(f \"b" ∧
      Agree (Program.run .standard 0 (Program.joined front last))
        (Program.runInTurn .standard 0 (Program.texts front last)) := by
  intro front last
  have hclosed : ∀ p ∈ front, Program.Closed p.1 := by
    rw [List.forall_mem_cons]
    exact ⟨⟨by decide, by decide⟩, List.forall_mem_singleton.2 ⟨by decide, by decide⟩⟩
  have hgaps : ∀ p ∈ front, Program.IsSeparator p.2 := by
    rw [List.forall_mem_cons]
    exact ⟨⟨by decide, by decide⟩, List.forall_mem_singleton.2 ⟨by decide, by decide⟩⟩
  have hreadable : (Program.texts front last).all (Program.readable .standard) = true := by decide
  have hrun := (joined_texts_run_in_turn hclosed hgaps .standard last 0).2.2.1
  rw [if_pos hreadable] at hrun
  exact ⟨hclosed, hgaps, by decide, hrun⟩

/-- it is not so that joined texts always run in turn: here the first text alone fails for another reason -/
theorem joined_text_is_refused_whole :
    ¬ ∀ (front : List (String × String)) (last : String), (∀ p ∈ front, Program.Closed p.1) →
      (∀ p ∈ front, Program.IsSeparator p.2) → ∀ frame,
      Agree (Program.run .standard frame (Program.joined front last))
        (Program.runInTurn .standard frame (Program.texts front last)) := by
  intro h
  let last := (Program.deepLayout Limits.standard.reading).text
  have hclosed : ∀ p ∈ [("x", " ")], Program.Closed p.1 := List.forall_mem_singleton.2 ⟨by decide, by decide⟩
  have hgaps : ∀ p ∈ [("x", " ")], Program.IsSeparator p.2 := List.forall_mem_singleton.2 ⟨by decide, by decide⟩
  have hdeep : Program.readable .standard last = false := Program.nestedWithin_deepLayout _
  have hrefused : Program.readable .standard (Program.joined [("x", " ")] last) = false := by
    rw [Program.readable_joined hclosed hgaps]
    simp [Program.texts, hdeep]
  have hjoined : Agree (fail .tooDeep) (Program.runInTurn .standard 0 ["x", last]) :=
    (Program.run_agree_of_not_readable 0 hrefused).symm.trans (h _ _ hclosed hgaps 0)
  -- alone, the first text fails because its name is not bound
  have hforms : Datum.ofSource "x" = [.atom (.identifier "x")] := by
    have hscan : Token.scan "x" = ["x"] := by decide
    rw [Datum.ofSource, hscan, Datum.readAll_of_some rfl, Datum.readAll_nil]
    rfl
  have hreadable : Program.readable .standard "x" = true := by decide
  have hfirst := Program.run_agree_of_readable 0 hreadable
  rw [hforms] at hfirst
  have hunbound : (Program.run .standard 0 "x" World.empty).1 = .error (.unbound "x") := by
    have hlookup : World.empty.store.lookup? 0 "x" = none := by
      rw [Store.lookup?, Store.find?, Store.chain]
      rfl
    have hvalue : Datum.value .standard (.atom (.identifier "x")) 0 World.empty
        = (.error (.unbound "x"), World.empty) := Run.lookup_error hlookup
    rw [(Agree.iff_forall.1 hfirst _ _ (.refl World.empty)).1, Evaluator.each, bind_error hvalue]
  have houtcome := (Agree.iff_forall.1 hjoined _ _ (.refl World.empty)).1
  rw [Program.runInTurn] at houtcome
  cases hx : Program.run .standard 0 "x" World.empty with
  | mk r w =>
    rw [hx] at hunbound
    obtain rfl : r = .error (.unbound "x") := hunbound
    rw [bind_error hx, fail_apply] at houtcome
    cases houtcome

end FrameLisp
