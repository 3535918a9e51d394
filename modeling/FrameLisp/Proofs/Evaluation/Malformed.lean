/-
Malformed special forms.

`SpecialForm.Accepts` says which parts a special form requires after its keyword. A form with other parts is refused
with a fault of the form, and no frame that was there before is changed. All forms but one are refused before anything
is evaluated. A let form, though, looks at a binding when its turn comes, so the bindings in front of the first
malformed one (`SpecialForm.leading`) are evaluated in the new frame before that one is found: what they print is
printed, and a fault of theirs is the fault of the form. So a malformed form is refused without a trace just if its
leading bindings are silent (`malformed_form_is_silent_iff`), and not always (`let_form_prints_before_it_is_refused`).
-/
import FrameLisp.Proofs.Evaluation.Begun

namespace FrameLisp

/-! ## The parts that a form requires -/

/-- a binding as a let form requires it: a name and the datum whose value it is bound to -/
def Datum.IsBinding (b : Datum) : Prop := ∃ x e, b = .list [identifier x, e]

namespace SpecialForm

/-- the parts that a special form requires after its keyword -/
def Accepts : SpecialForm → List Datum → Prop
  | .define, parts => ∃ x body, parts = [Datum.identifier x, body]
  | .conditional, parts => 2 ≤ parts.length
  | .block, parts => ∃ bindings body, parts = [.list bindings, body] ∧ ∀ b ∈ bindings, b.IsBinding
  | .function, parts => ∃ (params : List String) (body : List Datum),
    parts = .list (params.map Datum.identifier) :: body

/-- the bindings of a let form in front of the first malformed one; no other form has any -/
def leading : SpecialForm → List Datum → List Datum
  | .block, [.list bindings, _] => bindings.takeWhile fun b => (Evaluator.binding? b).isSome
  | _, _ => []

theorem not_accepts_block {bindings : List Datum} {b : Datum} (hmem : b ∈ bindings) (hb : ¬ b.IsBinding)
    (body : Datum) : ¬ block.Accepts [.list bindings, body] := by
  rintro ⟨bindings', body', hparts, hall⟩
  simp only [List.cons.injEq, Datum.list.injEq] at hparts
  exact hb (hall b (hparts.1 ▸ hmem))

end SpecialForm

theorem Datum.isBinding_iff {b : Datum} : b.IsBinding ↔ (Evaluator.binding? b).isSome = true := by
  rw [Option.isSome_iff_exists]
  constructor
  · rintro ⟨x, e, rfl⟩
    exact ⟨(x, e), rfl⟩
  · rintro ⟨⟨x, e⟩, h⟩
    exact ⟨x, e, Evaluator.binding?_eq_some_iff.1 h⟩

/-- a form with other parts is malformed, or it is a let form with a malformed binding -/
theorem Shape.ofForm_of_not_accepts {form : SpecialForm} {parts : List Datum} (h : ¬ form.Accepts parts) :
    (∃ fault, Shape.ofForm form parts = .malformed fault ∧ fault.kind = .form ∧ form.leading parts = []) ∨
      ∃ bindings body, form = .block ∧ parts = [.list bindings, body] ∧ ¬ ∀ b ∈ bindings, b.IsBinding := by
  cases form with
  | define =>
    refine Or.inl ?_
    show ∃ fault, Shape.ofDefine parts = .malformed fault ∧ fault.kind = .form ∧ _
    unfold Shape.ofDefine
    split
    · next target body =>
      split
      · next x hx => exact absurd ⟨x, body, by rw [Datum.identifier?_eq_some_iff.1 hx]; rfl⟩ h
      · exact ⟨_, rfl, rfl, rfl⟩
    · exact ⟨_, rfl, rfl, rfl⟩
  | conditional =>
    refine Or.inl ?_
    show ∃ fault, Shape.ofConditional parts = .malformed fault ∧ fault.kind = .form ∧ _
    unfold Shape.ofConditional
    split
    · next condition consequent others => exact absurd (by simp [SpecialForm.Accepts]) h
    · exact ⟨_, rfl, rfl, rfl⟩
  | block =>
    by_cases hparts : ∃ bindings body, parts = [.list bindings, body]
    · obtain ⟨bindings, body, rfl⟩ := hparts
      exact Or.inr ⟨bindings, body, rfl, rfl, fun hall => h ⟨bindings, body, rfl, hall⟩⟩
    · have hother : ∀ (bindings : List Datum) (body : Datum), parts ≠ [.list bindings, body] :=
        fun _ _ heq => hparts ⟨_, _, heq⟩
      refine Or.inl ⟨.blockShape, Shape.ofBlock.eq_2 _ hother, rfl, ?_⟩
      unfold SpecialForm.leading
      split
      · exact absurd rfl (hother _ _)
      · rfl
  | function =>
    refine Or.inl ?_
    show ∃ fault, Shape.ofFunction parts = .malformed fault ∧ fault.kind = .form ∧ _
    unfold Shape.ofFunction
    split
    · next ps body =>
      rcases Datum.paramNames_cases ps with ⟨params, rfl⟩ | ⟨params, other, others, hother, rfl⟩
      · exact absurd ⟨params, body, rfl⟩ h
      · rw [Datum.paramNames_append hother]
        exact ⟨_, rfl, rfl, rfl⟩
    · exact ⟨_, rfl, rfl, rfl⟩

/-! ## What a malformed form does -/

theorem Datum.not_defines_of_not_accepts {form : SpecialForm} {parts : List Datum} (h : ¬ form.Accepts parts)
    (x : String) : ¬ (ofForm form parts).Defines x := by
  rw [defines_iff, shape_ofForm]
  rcases Shape.ofForm_of_not_accepts h with ⟨fault, hshape, -, -⟩ | ⟨bindings, body, rfl, rfl, -⟩
  · simp [hshape, Shape.parts]
  · simp [Shape.ofForm, Shape.ofBlock, Shape.opensFrame]

/-- bindings up to a malformed one: those in front of it are evaluated -/
theorem Evaluator.fill_malformed (ev : Evaluator) (f : FrameId) {bindings : List Datum}
    (h : ¬ ∀ b ∈ bindings, b.IsBinding) :
    ∃ b, ev.fill f bindings = (do
      ev.fill f (bindings.takeWhile fun b => (binding? b).isSome)
      Effect.fail (.malformedBinding b)) := by
  induction bindings with
  | nil => exact absurd (by simp) h
  | cons c cs ih =>
    cases hc : binding? c with
    | none =>
      refine ⟨c, ?_⟩
      rw [Evaluator.fill, hc, List.takeWhile_cons_of_neg (by simp [hc])]
      rfl
    | some binding =>
      have hcs : ¬ ∀ b ∈ cs, b.IsBinding := by
        intro hall
        refine h (List.forall_mem_cons.2 ⟨Datum.isBinding_iff.2 ?_, hall⟩)
        rw [hc]
        rfl
      obtain ⟨b, hb⟩ := ih hcs
      refine ⟨b, ?_⟩
      rw [Evaluator.fill, hc, List.takeWhile_cons_of_pos (by simp [hc]), Evaluator.fill, hc, hb]
      simp only [bind_assoc]

/-- a malformed form evaluates its leading bindings in a new frame, and then it is refused -/
theorem Datum.evaluate_malformed {form : SpecialForm} {parts : List Datum} (h : ¬ form.Accepts parts)
    (room depth : Nat) (f : FrameId) (w : World) :
    let d := ofForm form parts
    let before := (evaluate room depth).fill w.store.size (form.leading parts) (w.enteringBlock d f)
    (d.evaluate room (depth + 1) f w).2.printed = before.2.printed ∧
      ∃ fault, fault.kind = .form ∧ (d.evaluate room (depth + 1) f w).1 = before.1.bind fun _ => .error fault := by
  intro d before
  have hrun : d.evaluate room (depth + 1) f w
      = (Shape.ofForm form parts).perform room (evaluate room depth) f (w.entering d) := by
    rw [evaluate_entering, shape_ofForm]
  rw [hrun]
  rcases Shape.ofForm_of_not_accepts h with ⟨fault, hshape, hkind, hleading⟩ | ⟨bindings, body, rfl, rfl, hmalformed⟩
  · have hbefore : before = (.ok (), w.enteringBlock d f) := by
      simp only [before, hleading]
      rfl
    rw [hshape, hbefore]
    exact ⟨rfl, fault, hkind, rfl⟩
  · obtain ⟨b, hfill⟩ := (evaluate room depth).fill_malformed w.store.size hmalformed
    have hperform : (Shape.ofForm .block [.list bindings, body]).perform room (evaluate room depth) f (w.entering d)
        = (do
          (evaluate room depth).fill w.store.size (SpecialForm.leading .block [.list bindings, body])
          Effect.fail (.malformedBinding b) : Run Datum) (w.enteringBlock d f) := by
      show ((evaluate room depth).fill w.store.size bindings >>= fun _ => body.evaluate room depth w.store.size)
        (w.enteringBlock d f) = _
      rw [hfill, bind_assoc]
      rfl
    rw [hperform, Effect.bind_fail]
    exact ⟨rfl, .malformedBinding b, rfl, rfl⟩

/-! ## Main statement -/

/-- **Malformed forms and their traces.** In a reachable store, let the parts of a special form not be those that it
requires. Its evaluation keeps the frames that were there as they were. It prints what its leading bindings print in the
new frame, and ends with a fault of theirs or, after them, with a fault of the form. So it ends with a fault of the form
and prints nothing just if they end without any other fault and print nothing, as in every form but a let form, where
there are none. -/
theorem malformed_form_is_silent_iff {s : Store} (hs : s.Reachable) (f : FrameId) {form : SpecialForm}
    {parts : List Datum} (h : ¬ form.Accepts parts) (room depth : Nat) (printed : String)
    (notes : Array Note) :
    let d := Datum.ofForm form parts
    let w : World := ⟨s, printed, notes⟩
    let before := (Datum.evaluate room depth).fill s.size (form.leading parts) (w.enteringBlock d f)
    let run := d.evaluate room (depth + 1) f w
    (∀ g, g < s.size → run.2.store.frame? g = s.frame? g) ∧
      (run.2.printed = before.2.printed ∧
        ∃ fault, fault.kind = .form ∧ run.1 = before.1.bind fun _ => .error fault) ∧
      ((∃ fault, run.1 = .error fault ∧ fault.kind = .form) ∧ run.2.printed = printed ↔
        (∀ fault, before.1 = .error fault → fault.kind = .form) ∧ before.2.printed = printed) ∧
      (form ≠ .block → (∃ fault, run.1 = .error fault ∧ fault.kind = .form) ∧ run.2.printed = printed) := by
  intro d w before run
  have hrun : run.2.printed = before.2.printed ∧
      ∃ fault, fault.kind = .form ∧ run.1 = before.1.bind fun _ => .error fault :=
    Datum.evaluate_malformed h room depth f w
  have hiff : (∃ fault, run.1 = .error fault ∧ fault.kind = .form) ∧ run.2.printed = printed ↔
      (∀ fault, before.1 = .error fault → fault.kind = .form) ∧ before.2.printed = printed := by
    obtain ⟨hprinted, fault, hkind, hresult⟩ := hrun
    rw [hprinted, hresult]
    refine and_congr_left fun _ => ?_
    cases before.1 with
    | ok a => simp [Except.bind, hkind]
    | error fault' => simp [Except.bind]
  refine ⟨fun g hg => ?_, hrun, hiff, fun hform => hiff.2 ?_⟩
  · exact Datum.evaluate_keeps (Datum.not_defines_of_not_accepts h) room (depth + 1) f hs.distinct hg
  · have hleading : form.leading parts = [] := by
      rcases Shape.ofForm_of_not_accepts h with ⟨fault, -, -, hleading⟩ | ⟨bindings, body, hblock, -, -⟩
      · exact hleading
      · exact absurd hblock hform
    have hbefore : before = (.ok (), w.enteringBlock d f) := by
      simp only [before, hleading]
      rfl
    rw [hbefore]
    refine ⟨fun fault hfault => ?_, rfl⟩
    cases hfault

/-- a let form with a call in front of a malformed binding: what the call prints is all that is left of it -/
theorem printing_form_is_malformed :
    let s : Store := .push .empty Builtin.bindings none
    let call : Datum := .list [.identifier "print", .atom (.string "a")]
    let parts : List Datum := [.list [.list [.identifier "x", call], .list [.identifier "y"]], .identifier "x"]
    let run := (Datum.ofForm .block parts).evaluate 9 9 0 ⟨s, "", #[]⟩
    s.Reachable ∧ ¬ SpecialForm.block.Accepts parts ∧
      (∀ g, g < s.size → run.2.store.frame? g = s.frame? g) ∧
      run.2.printed = "a\n" ∧ (∃ fault, run.1 = .error fault ∧ fault.kind = .form) := by
  intro s call parts run
  have hs : s.Reachable := Store.Reachable.empty.newRoot
  have hmalformed : ¬ SpecialForm.block.Accepts parts :=
    SpecialForm.not_accepts_block (b := .list [.identifier "y"]) (by simp) (by simp [Datum.IsBinding]) _
  obtain ⟨hframes, ⟨hprinted, fault, hkind, hresult⟩, -, -⟩ :=
    malformed_form_is_silent_iff hs 0 hmalformed 9 8 "" #[]
  let before := (Datum.evaluate 9 8).fill s.size (SpecialForm.leading .block parts)
    (World.enteringBlock ⟨s, "", #[]⟩ (Datum.ofForm .block parts) 0)
  have hbefore : before.1.isOk = true ∧ before.2.printed = "a\n" := by decide +kernel
  refine ⟨hs, hmalformed, hframes, hprinted.trans hbefore.2, fault, ?_, hkind⟩
  cases hok : before.1 with
  | error fault' => simp [hok, Except.isOk, Except.toBool] at hbefore
  | ok a => rw [hresult, hok]; rfl

/-- **A malformed let form prints.** Of the statement that a malformed form is refused without a trace, wherever it is
evaluated, the part about the printed text is false: the value in front of the malformed binding has been printed. -/
theorem let_form_prints_before_it_is_refused :
    ¬ ∀ (s : Store) (f : FrameId) (form : SpecialForm) (parts : List Datum), s.Reachable → f < s.size →
      ¬ form.Accepts parts → ∀ (room depth : Nat) (printed : String) (notes : Array Note),
        let run := (Datum.ofForm form parts).evaluate room (depth + 1) f ⟨s, printed, notes⟩
        (∃ fault, run.1 = .error fault ∧ fault.kind = .form) ∧ run.2.printed = printed ∧
          ∀ g, g < s.size → run.2.store.frame? g = s.frame? g := by
  intro hall
  let call : Datum := .list [.identifier "print", .atom (.string "a")]
  let parts : List Datum := [.list [.list [.identifier "x", call], .list [.identifier "y"]], .identifier "x"]
  have hmalformed : ¬ SpecialForm.block.Accepts parts :=
    SpecialForm.not_accepts_block (b := .list [.identifier "y"]) (by simp) (by simp [Datum.IsBinding]) _
  obtain ⟨-, hprinted, -⟩ := hall (.push .empty Builtin.bindings none) 0 .block parts Store.Reachable.empty.newRoot
    (by decide) hmalformed 9 8 "" #[]
  revert hprinted
  decide +kernel

end FrameLisp
