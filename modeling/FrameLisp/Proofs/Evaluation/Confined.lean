/-
What evaluation does not make.

Let some functions be bad, closures or builtins (`bad`), and some data be code (`code`), such that nothing bad is inside
of code, no function form of the code makes a bad closure, and the bodies of the closures that are not bad are code
(`Confines`). Where code is evaluated and no frame holds anything bad, nothing bad comes up: not in the value, not in a
frame, and if `print` is bad then nothing is printed, all of this also where the evaluation fails
(`Datum.evaluate_clean`). One level of evaluation keeps it so, shape by shape (`Evaluator.perform_clean`).

Results:
- `builtins_are_not_forged`: a builtin that no frame holds is not in the value of any datum that was read, nor in a
  frame thereafter; and without `print` nothing is printed.
- `Session.after_codeRead`: the functions of sessions have bodies that were read, as that statement requires.
-/
import Mathlib
import FrameLisp.Proofs.Builtin
import FrameLisp.Proofs.Session.Steps
import FrameLisp.Proofs.Store.WellFormed

namespace FrameLisp

open Datum (OnlyFunctions)

/-! ## Code -/

/-- the data that evaluation of a shape evaluates itself, when it gets to them -/
def Shape.evaluated : Shape → List Datum
  | .items head args => head :: args
  | .define _ body => [body]
  | .conditional condition consequent alternative => condition :: consequent :: alternative.toList
  | .block bindings body => body :: bindings.filterMap fun b => (Evaluator.binding? b).map Prod.snd
  | _ => []

theorem Shape.mem_evaluated_block {bindings : List Datum} {body e : Datum} :
    e ∈ (Shape.block bindings body).evaluated ↔ e = body ∨ ∃ x, Datum.list [.identifier x, e] ∈ bindings := by
  simp only [evaluated, List.mem_cons, List.mem_filterMap, Option.map_eq_some_iff, Prod.exists, exists_eq_right,
    Evaluator.binding?_eq_some_iff]
  constructor
  · rintro (rfl | ⟨b, hb, x, rfl⟩)
    · exact Or.inl rfl
    · exact Or.inr ⟨x, hb⟩
  · rintro (rfl | ⟨x, hb⟩)
    · exact Or.inl rfl
    · exact Or.inr ⟨_, hb, x, rfl⟩

/-- what is evaluated is an item of the datum or held by one -/
theorem Datum.heldIn_item_of_mem_evaluated {d e : Datum} (he : e ∈ d.shape.evaluated) :
    ∃ items c, d = .list items ∧ c ∈ items ∧ e.HeldIn c := by
  have hshape := hasShape_shape d
  generalize d.shape = shape at hshape he
  cases hshape with
  | number | string | name | empty | value | function | defineArity | notDefinable | conditionalArity | blockShape |
    functionShape | badParameter => exact absurd he List.not_mem_nil
  | items _ args => exact ⟨_, e, rfl, he, .self⟩
  | define x body =>
    rw [List.mem_singleton.1 he]
    exact ⟨_, body, rfl, by simp, .self⟩
  | conditional condition consequent others =>
    refine ⟨_, e, rfl, ?_, .self⟩
    simp only [Shape.evaluated, List.mem_cons, Option.mem_toList] at he ⊢
    rcases he with rfl | rfl | he
    · simp
    · simp
    · exact Or.inr (Or.inr (Or.inr (List.mem_of_mem_head? he)))
  | block bindings body =>
    rcases Shape.mem_evaluated_block.1 he with rfl | ⟨x, hb⟩
    · exact ⟨_, e, rfl, by simp, .self⟩
    · exact ⟨_, .list bindings, rfl, by simp, .item hb (.item (by simp) .self)⟩

theorem Datum.inside_of_mem_evaluated {d e : Datum} (he : e ∈ d.shape.evaluated) : e.Inside d := by
  obtain ⟨items, c, rfl, hc, hheld⟩ := heldIn_item_of_mem_evaluated he
  exact .item hc hheld.inside

/-- nothing bad comes of code: none is inside of it, its parts are code, its function forms make none, and a closure
that is not bad has a body of code -/
structure Confines (code bad : Datum → Prop) : Prop where
  onlyFunctions : OnlyFunctions bad
  free : ∀ d, code d → d.Free bad
  part : ∀ d e, code d → e ∈ d.shape.evaluated → code e
  made : ∀ d params body f, code d → d.HasShape (.function params body) → ¬ bad (.closure params body f)
  body : ∀ params body f, ¬ bad (.closure params body f) → ∀ e ∈ body, code e

/-- no frame holds anything bad, and no more than `out` is printed if `print` is bad -/
structure World.Clean (bad : Datum → Prop) (out : String) (w : World) : Prop where
  store : w.store.All (Datum.Free bad)
  printed : bad (.builtin .print) → w.printed = out

/-! ## One level of evaluation -/

namespace Evaluator

variable {α β : Type} {code bad : Datum → Prop} {out : String} {w : World}

/-- `x` ends in a clean world, where its result meets `ok` -/
abbrev StaysClean (bad : Datum → Prop) (out : String) (x : Run α) (w : World) (ok : α → Prop) : Prop :=
  x.Ends w (fun a w' => w'.Clean bad out ∧ ok a) fun _ w' => w'.Clean bad out

theorem StaysClean.bind {x : Run α} {next : α → Run β} {ok : α → Prop} {done : β → Prop}
    (h : StaysClean bad out x w ok) (hnext : ∀ a w', w'.Clean bad out → ok a → StaysClean bad out (next a) w' done) :
    StaysClean bad out (x >>= next) w done :=
  Effect.Ends.bind h fun a w' ha => hnext a w' ha.1 ha.2

theorem staysClean_pure (h : w.Clean bad out) {ok : α → Prop} {a : α} (ha : ok a) :
    StaysClean bad out (pure a) w ok :=
  Effect.ends_of_ok rfl ⟨h, ha⟩

theorem staysClean_fail (h : w.Clean bad out) (fault : Fault) (ok : α → Prop) :
    StaysClean bad out (Effect.fail fault) w ok :=
  Effect.ends_of_error rfl h

theorem staysClean_define (h : w.Clean bad out) (f : FrameId) (x : String) {v : Datum} (hv : v.Free bad) :
    StaysClean bad out (Effect.define f x v) w fun _ => True :=
  Effect.ends_of_ok rfl ⟨⟨h.store.define f x hv, h.printed⟩, trivial⟩

theorem staysClean_newFrame (h : w.Clean bad out) {bindings : Bindings} (hbindings : bindings.All (Datum.Free bad))
    (outer : Option FrameId) : StaysClean bad out (Effect.newFrame bindings outer) w fun _ => True :=
  Effect.ends_of_ok rfl ⟨⟨h.store.push hbindings outer, h.printed⟩, trivial⟩

/-- a builtin that is not bad gives nothing bad and prints only if `print` is not bad -/
theorem builtin_clean (h : w.Clean bad out) (hbad : OnlyFunctions bad) (room : Nat) {b : Builtin}
    (hb : ¬ bad (.builtin b)) {args : List Datum} (hargs : ∀ a ∈ args, a.Free bad) :
    StaysClean bad out (b.call room args) w (Datum.Free bad) := by
  have hprinted : bad (.builtin .print) → (w.print (b.output args)).printed = out := by
    intro hprint
    have hne : b ≠ .print := by
      rintro rfl
      exact hb hprint
    rw [Builtin.output_eq_empty hne, World.print, String.append_empty]
    exact h.printed hprint
  by_cases hshows : b.showsWithin room args = true
  · have hcall := Builtin.call_of_showsWithin hshows w
    cases hr : b.result args with
    | ok v =>
      rw [hr] at hcall
      exact Effect.ends_of_ok hcall ⟨⟨h.store, hprinted⟩, Datum.free_result hbad hargs hr⟩
    | error fault =>
      rw [hr] at hcall
      exact Effect.ends_of_error hcall ⟨h.store, hprinted⟩
  · exact Effect.ends_of_error (if_neg hshows) h

variable {ev : Evaluator} (hc : Confines code bad)
  (hev : ∀ d f w, code d → w.Clean bad out → StaysClean bad out (ev d f) w (Datum.Free bad))

include hev

theorem each_clean (h : w.Clean bad out) {f : FrameId} {ds : List Datum} (hds : ∀ d ∈ ds, code d) :
    StaysClean bad out (ev.each f ds) w fun vs => ∀ v ∈ vs, v.Free bad := by
  induction ds generalizing w with
  | nil => exact staysClean_pure h (by simp)
  | cons d ds ih =>
    rw [List.forall_mem_cons] at hds
    refine (hev d f w hds.1 h).bind ?_
    intro v w₁ h₁ hv
    refine (ih h₁ hds.2).bind ?_
    intro vs w₂ h₂ hvs
    exact staysClean_pure h₂ (List.forall_mem_cons.2 ⟨hv, hvs⟩)

theorem sequence_clean (h : w.Clean bad out) {f : FrameId} {last : Datum} (hlast : last.Free bad) {ds : List Datum}
    (hds : ∀ d ∈ ds, code d) : StaysClean bad out (ev.sequence f last ds) w (Datum.Free bad) := by
  induction ds generalizing w last with
  | nil => exact staysClean_pure h hlast
  | cons d ds ih =>
    rw [List.forall_mem_cons] at hds
    refine (hev d f w hds.1 h).bind ?_
    intro v w₁ h₁ hv
    exact ih h₁ hv hds.2

theorem fill_clean (h : w.Clean bad out) {f : FrameId} {bindings : List Datum}
    (hbindings : ∀ x e, Datum.list [.identifier x, e] ∈ bindings → code e) :
    StaysClean bad out (ev.fill f bindings) w fun _ => True := by
  induction bindings generalizing w with
  | nil => exact staysClean_pure h trivial
  | cons b bindings ih =>
    unfold Evaluator.fill
    split
    · exact staysClean_fail h _ _
    · next x e hb =>
      rw [binding?_eq_some_iff] at hb
      subst hb
      refine (hev e f w (hbindings x e List.mem_cons_self) h).bind ?_
      intro v w₁ h₁ hv
      refine (staysClean_define h₁ f x hv).bind ?_
      intro _ w₂ h₂ _
      exact ih h₂ fun y c hmem => hbindings y c (List.mem_cons_of_mem _ hmem)

include hc

theorem call_clean (h : w.Clean bad out) (room : Nat) {function : Datum} (hfunction : function.Free bad)
    {args : List Datum} (hargs : ∀ a ∈ args, a.Free bad) :
    StaysClean bad out (ev.call room function args) w (Datum.Free bad) := by
  unfold Evaluator.call
  split
  · next params body captured =>
    have hbody := hc.body params body captured (Datum.free_closure.1 hfunction).1
    have habsent := Datum.free_absent hc.onlyFunctions
    refine (staysClean_newFrame h (Bindings.all_ofPairs (Bindings.all_ofParams habsent hargs params)) _).bind ?_
    intro inner w₁ h₁ _
    exact sequence_clean hev h₁ habsent hbody
  · next b => exact builtin_clean h hc.onlyFunctions room (Datum.free_builtin.1 hfunction) hargs
  · exact staysClean_fail h _ _

/-- **Each shape keeps what is clean**, where the parts of code are evaluated so -/
theorem perform_clean (h : w.Clean bad out) (room : Nat) {f : FrameId} {d : Datum} (hd : code d) :
    StaysClean bad out (d.shape.perform room ev f) w (Datum.Free bad) := by
  have hshape := d.hasShape_shape
  have hfree := hc.free d hd
  have hpart := fun e => hc.part d e hd
  cases hs : d.shape with
  -- the datum itself, a number or a text
  | value v => exact staysClean_pure h (hfree.of_value hc.onlyFunctions hs)
  | name x =>
    rw [Shape.perform]
    exact Run.lookup_ends (fun v hv => ⟨h, h.store.lookup hv⟩) h
  | items head args =>
    rw [hs] at hpart
    obtain ⟨hhead, hargs⟩ := List.forall_mem_cons.1 hpart
    refine (hev head f w hhead h).bind ?_
    intro function w₁ h₁ hfunction
    refine (each_clean hev h₁ hargs).bind ?_
    intro values w₂ h₂ hvalues
    split
    · exact call_clean hc hev h₂ room hfunction hvalues
    · exact staysClean_pure h₂ ((Datum.free_list hc.onlyFunctions).2 (List.forall_mem_cons.2 ⟨hfunction, hvalues⟩))
  | define x body =>
    rw [hs] at hpart
    refine (hev body f w (hpart body List.mem_cons_self) h).bind ?_
    intro v w₁ h₁ hv
    refine (staysClean_define h₁ f x hv).bind ?_
    intro _ w₂ h₂ _
    exact staysClean_pure h₂ hv
  | conditional condition consequent alternative =>
    rw [hs] at hpart
    refine (hev condition f w (hpart _ (by simp [Shape.evaluated])) h).bind ?_
    intro v w₁ h₁ _
    split
    · exact hev consequent f w₁ (hpart _ (by simp [Shape.evaluated])) h₁
    · cases alternative with
      | none => exact staysClean_pure h₁ (Datum.free_absent hc.onlyFunctions)
      | some alternative => exact hev alternative f w₁ (hpart _ (by simp [Shape.evaluated])) h₁
  | block bindings body =>
    simp only [hs, Shape.mem_evaluated_block] at hpart
    refine (staysClean_newFrame h Bindings.all_nil _).bind ?_
    intro inner w₁ h₁ _
    refine (fill_clean hev h₁ fun x e hb => hpart e (Or.inr ⟨x, hb⟩)).bind ?_
    intro _ w₂ h₂ _
    exact hev body inner w₂ (hpart body (Or.inl rfl)) h₂
  | function params body =>
    rw [hs] at hshape
    have hbody : ∀ c ∈ body, c.Free bad := fun c hmem => hfree.part (by rw [hs]; exact hmem)
    exact staysClean_pure h (Datum.free_closure.2 ⟨hc.made d params body f hd hshape, hbody⟩)
  | malformed fault => exact staysClean_fail h _ _

end Evaluator

/-- **Nothing bad comes of code**, wherever an evaluation of it ends -/
theorem Datum.evaluate_clean {code bad : Datum → Prop} (hc : Confines code bad) {out : String} (room depth : Nat)
    (d : Datum) (f : FrameId) (w : World) (hd : code d) (h : w.Clean bad out) :
    Evaluator.StaysClean bad out (d.evaluate room depth f) w (Free bad) := by
  induction depth generalizing d f w with
  | zero => exact Evaluator.staysClean_fail h _ _
  | succ depth ih =>
    rw [evaluate_succ, evaluateWith_eq]
    have hnotes : Evaluator.StaysClean bad out (Effect.noteAll d.entered) w fun _ => True :=
      Effect.ends_of_ok (Effect.noteAll_apply _ w) ⟨⟨h.store, h.printed⟩, trivial⟩
    refine hnotes.bind ?_
    intro _ w₁ h₁ _
    exact Evaluator.perform_clean hc ih h₁ room hd

/-- the world that code leaves is clean, and so is its value -/
theorem Datum.evaluate_clean_outcome {code bad : Datum → Prop} (hc : Confines code bad) (room depth : Nat) {d : Datum}
    (f : FrameId) {w : World} (hd : code d) (h : w.store.All (Free bad)) :
    let out := d.evaluate room depth f w
    (∀ v, out.1 = .ok v → v.Free bad) ∧ out.2.Clean bad w.printed := by
  intro out
  have hends := evaluate_clean hc room depth d f w hd ⟨h, fun _ => rfl⟩
  obtain ⟨hclean, hvalue⟩ := hends.outcome
  exact ⟨hvalue, hclean⟩

/-! ## Builtins -/

/-- a builtin that meets `p`, or a closure whose body was not read from a text -/
def Datum.Foreign (p : Builtin → Prop) (d : Datum) : Prop :=
  (∃ b, p b ∧ d = .builtin b) ∨ ∃ params body f, d = .closure params body f ∧ ¬ ∀ e ∈ body, e.Parsed

theorem Datum.free_foreign_iff {p : Builtin → Prop} {d : Datum} :
    d.Free (Foreign p) ↔ d.CodeRead ∧ ∀ b, p b → ¬ (Datum.builtin b).HeldIn d := by
  constructor
  · intro h
    refine ⟨allClosures_iff_free.2 fun c hc hbad => h c hc (Or.inr hbad), fun b hb hheld => ?_⟩
    exact h _ hheld.inside (Or.inl ⟨b, hb, rfl⟩)
  · rintro ⟨hcode, hfree⟩ c hc (⟨b, hb, rfl⟩ | hbad)
    · exact hfree b hb ((inside_builtin_iff hcode).1 hc)
    · exact allClosures_iff_free.1 hcode c hc hbad

/-- data that were read make nothing foreign -/
theorem confines_foreign (p : Builtin → Prop) : Confines Datum.Parsed (Datum.Foreign p) where
  onlyFunctions := by
    rintro d (⟨b, -, rfl⟩ | ⟨params, body, f, rfl, -⟩)
    · rfl
    · rfl
  free := by
    rintro d hd c hc (⟨b, -, rfl⟩ | ⟨params, body, f, rfl, -⟩)
    · cases hd.of_inside hc
    · cases hd.of_inside hc
  part d e hd he := hd.of_inside (Datum.inside_of_mem_evaluated he)
  made := by
    rintro d params body f hd hshape (⟨b, -, hb⟩ | ⟨params', body', f', heq, hbody⟩)
    · cases hb
    · cases heq
      refine hbody fun e he => hd.of_inside (Datum.inside_of_mem_parts ?_)
      rw [hshape.shape_eq]
      exact he
  body := by
    intro params body f h
    by_contra hbody
    exact h (Or.inr ⟨params, body, f, rfl, hbody⟩)

theorem Session.keeps_codeRead (limits : Limits) (root : FrameId) :
    Session.Keeps (fun s t => s.All Datum.CodeRead → t.All Datum.CodeRead) limits root := by
  refine ⟨fun _ h => h, fun s t u hst htu h => htu (hst h), fun d hd w h => ?_⟩
  have hfree : w.store.All (Datum.Free (Datum.Foreign fun _ => False)) :=
    h.mono fun v hv => Datum.free_foreign_iff.2 ⟨hv, fun b hb => hb.elim⟩
  have hclean :=
    (Datum.evaluate_clean_outcome (confines_foreign _) limits.display limits.evaluation root hd hfree).2
  exact hclean.store.mono fun v hv => (Datum.free_foreign_iff.1 hv).1

/-- what every builtin meets, and what evaluation keeps of all bound values, holds of all that a session binds -/
theorem Session.after_all {p : Datum → Prop} (hbuiltin : ∀ b, p (.builtin b)) {s : Surroundings} {w : World}
    (hkeeps : Keeps (fun s t => s.All p → t.All p) s.limits w.store.size) (beginning : Beginning)
    (h : w.store.All p) (steps : List Step) :
    (after s w.store.size (start s beginning w).2 steps).store.All p := by
  have hroot : (w.store.push Builtin.bindings none).All p := by
    refine h.push (fun pair hpair => ?_) none
    obtain ⟨b, -, rfl⟩ := List.mem_map.1 hpair
    exact hbuiltin b
  have hstart := hkeeps.start beginning hroot
  exact hkeeps.after _ steps hstart

/-- **The functions of sessions were read**, whatever a session begins with and whatever its steps come to -/
theorem Session.after_codeRead (s : Surroundings) (beginning : Beginning) {w : World}
    (h : w.store.All Datum.CodeRead) (steps : List Step) :
    (after s w.store.size (start s beginning w).2 steps).store.All Datum.CodeRead :=
  after_all Datum.allClosures_builtin (keeps_codeRead s.limits w.store.size) beginning h steps

/-! ## Main statement -/

/-- **Builtins are not forged.** Let no frame hold a builtin, by itself or in a list, and let the functions that frames
hold have bodies that were read, as all functions have that programs make (`Session.after_codeRead`). However the
evaluation of a datum that was read ends, its value does not hold the builtin, and no frame holds it, nor has a function
with another body; so it goes on. If the builtin is `print`, nothing was printed. -/
theorem builtins_are_not_forged {w : World} (hcode : w.store.All Datum.CodeRead) {b : Builtin}
    (hfree : w.store.All fun v => ¬ (Datum.builtin b).HeldIn v) {e : Datum} (he : e.Parsed) (room depth : Nat)
    (f : FrameId) :
    let out := e.evaluate room depth f w
    (∀ v, out.1 = .ok v → ¬ (Datum.builtin b).HeldIn v) ∧
      (out.2.store.All fun v => ¬ (Datum.builtin b).HeldIn v) ∧ out.2.store.All Datum.CodeRead ∧
      (b = .print → out.2.printed = w.printed) := by
  intro out
  have hstore : w.store.All (Datum.Free (Datum.Foreign (· = b))) := by
    intro g frame hg binding hbinding
    refine Datum.free_foreign_iff.2 ⟨hcode g frame hg binding hbinding, ?_⟩
    rintro b rfl
    exact hfree g frame hg binding hbinding
  obtain ⟨hvalue, hclean⟩ := Datum.evaluate_clean_outcome (confines_foreign (· = b)) room depth f he hstore
  refine ⟨fun v hv => ?_, ?_, ?_, fun hprint => ?_⟩
  · exact (Datum.free_foreign_iff.1 (hvalue v hv)).2 b rfl
  · exact hclean.store.mono fun v hv => (Datum.free_foreign_iff.1 hv).2 b rfl
  · exact hclean.store.mono fun v hv => (Datum.free_foreign_iff.1 hv).1
  · exact hclean.printed (Or.inl ⟨.print, hprint.symm, rfl⟩)

/-- a function gets another builtin out of a list, and `print` can be the name of that one: still nothing is printed -/
theorem program_without_print_is_silent :
    let pick := Datum.closure ["g"] [.list [.identifier "g", .identifier "tools"]] 0
    let s : Store := .push .empty [("first", .builtin .first), ("tools", .list [.builtin .add]), ("pick", pick)] none
    let e := Datum.ofForm .block [.list [.list [.identifier "print", .list [.identifier "pick", .identifier "first"]]],
      .list [.identifier "print", .atom (.string "a"), .atom (.string "b")]]
    s.All Datum.CodeRead ∧ (s.All fun v => ¬ (Datum.builtin .print).HeldIn v) ∧ e.Parsed ∧
      (e.evaluate 1 5 0 ⟨s, "", #[]⟩).1 = .ok (.text "ab") ∧
      ∀ room depth, (e.evaluate room depth 0 ⟨s, "", #[]⟩).2.printed = "" := by
  intro pick s e
  have hcode : s.All Datum.CodeRead := by
    refine Store.all_empty.push ?_ none
    simp [Bindings.All, pick, Datum.CodeRead, Datum.allClosures_list, Datum.allClosures_closure, Datum.parsed_list,
      Datum.identifier, Datum.Parsed.atom]
  have hfree : s.All fun v => ¬ (Datum.builtin .print).HeldIn v := by
    refine Store.all_empty.push ?_ none
    simp only [Bindings.All, List.forall_mem_cons, pick]
    refine ⟨?_, ?_, ?_, by simp⟩
    · rintro ⟨⟩
    · rintro (_ | ⟨hmem, h⟩)
      rw [List.mem_singleton.1 hmem] at h
      cases h
    · rintro ⟨⟩
  have he : e.Parsed := by
    simp [e, Datum.ofForm, Datum.identifier, Datum.parsed_list, Datum.Parsed.atom]
  refine ⟨hcode, hfree, he, ?_, fun room depth => ?_⟩
  · simp only [e, s, pick]
    cbv
  · have hout := builtins_are_not_forged (w := ⟨s, "", #[]⟩) hcode hfree he room depth 0
    exact hout.2.2.2 rfl

end FrameLisp
