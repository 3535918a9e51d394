/-
Evaluation without closures.

A fault for depth has one of two origins inside the evaluation that ends with it: an evaluation that has no depth left,
or a call of a builtin that would show data that are nested too deeply (`Evaluation.run_tooDeep_iff`).

Where no frame holds a closure and a datum makes none (`Datum.MakesFunction`), no closure is ever called. What is
evaluated inside is then held by the datum itself, and is nested less with each level (`Evaluation.Begins.confined`), so
that depth is never used up.

Result:
- `evaluation_without_closures_ends`: such an evaluation takes no more levels than the datum is nested, and it ends with
  a value or a fault of the language, unless a builtin would show data that are nested too deeply; no frame holds a
  closure thereafter.
Refutation:
- `deep_value_is_not_shown`: a value that was bound before can be nested too deeply to be printed.
-/
import FrameLisp.Proofs.Evaluation.Begun
import FrameLisp.Proofs.Evaluation.Confined
import FrameLisp.Proofs.Semantics.Complete

namespace FrameLisp

open Datum (Free)

/-! ## Where a computation fails -/

namespace Evaluator

variable {ev : Evaluator} {f : FrameId} {w w' : World} {fault : Fault}

theorem each_error {ds : List Datum} (h : ev.each f ds w = (.error fault, w')) :
    ∃ front e back vs w₁, ds = front ++ e :: back ∧ ev.each f front w = (.ok vs, w₁) ∧
      ev e f w₁ = (.error fault, w') := by
  induction ds generalizing w with
  | nil => cases h
  | cons d ds ih =>
    rcases Effect.bind_eq_error h with hd | ⟨v, w₁, hd, hrest⟩
    · exact ⟨[], d, ds, [], w, rfl, rfl, hd⟩
    · rcases Effect.bind_eq_error hrest with hds | ⟨vs, w₂, -, hpure⟩
      · obtain ⟨front, e, back, vs, w₂, rfl, hfront, he⟩ := ih hds
        refine ⟨d :: front, e, back, v :: vs, w₂, rfl, ?_, he⟩
        rw [each, Effect.bind_ok hd, Effect.bind_ok hfront]
        rfl
      · cases hpure

/-- the forms of a body fail as data one after another do -/
theorem each_of_sequence_error {ds : List Datum} {last : Datum} (h : ev.sequence f last ds w = (.error fault, w')) :
    ev.each f ds w = (.error fault, w') := by
  induction ds generalizing w last with
  | nil => cases h
  | cons d ds ih =>
    rcases Effect.bind_eq_error h with hd | ⟨v, w₁, hd, hds⟩
    · exact Effect.bind_error hd _
    · rw [each, Effect.bind_ok hd, Effect.bind_error (ih hds)]

theorem fill_error {bindings : List Datum} (h : ev.fill f bindings w = (.error fault, w')) :
    (∃ b, fault = .malformedBinding b) ∨
      ∃ front x e back w₁, bindings = front ++ .list [.identifier x, e] :: back ∧
        ev.fill f front w = (.ok (), w₁) ∧ ev e f w₁ = (.error fault, w') := by
  induction bindings generalizing w with
  | nil => cases h
  | cons b bindings ih =>
    rw [Evaluator.fill] at h
    cases hb : binding? b with
    | none =>
      rw [hb] at h
      cases h
      exact Or.inl ⟨b, rfl⟩
    | some binding =>
      obtain ⟨x, e⟩ := binding
      rw [hb] at h
      rw [binding?_eq_some_iff] at hb
      subst hb
      rcases Effect.bind_eq_error h with he | ⟨v, w₁, he, hrest⟩
      · exact Or.inr ⟨[], x, e, bindings, w, rfl, rfl, he⟩
      · rcases Effect.bind_eq_error hrest with hdefine | ⟨u, w₂, hdefine, hfill⟩
        · cases hdefine
        · rcases ih hfill with hmalformed | ⟨front, y, c, back, w₃, rfl, hfront, hc⟩
          · exact Or.inl hmalformed
          · refine Or.inr ⟨_ :: front, y, c, back, w₃, rfl, ?_, hc⟩
            rw [Evaluator.fill]
            exact (Effect.bind_ok he _).trans ((Effect.bind_ok hdefine _).trans hfront)

end Evaluator

/-! ## The origins of a fault for depth -/

namespace Evaluation

variable {room : Nat} {x y : Evaluation} {w' : World}

/-- `x` itself calls a builtin with values that the builtin would show, and they are nested too deeply -/
inductive ShowsTooDeep (room : Nat) : Evaluation → Prop
  | intro {n d f w head args b values w'} (hd : d.HasShape (.items head args))
    (hvalues : (Datum.evaluate room n).each f (head :: args) (w.entering d) = (.ok (.builtin b :: values), w'))
    (hshows : b.showsWithin room values = false) : ShowsTooDeep room ⟨n + 1, d, f, w⟩

theorem ShowsTooDeep.run_eq (h : x.ShowsTooDeep room) : (x.run room).1 = .error .tooDeep := by
  obtain ⟨hd, hvalues, hshows⟩ := h
  rw [Evaluation.run_eq _ _ _ _ hd, perform_items, Effect.bind_ok hvalues, Evaluator.combine_builtin, Builtin.call,
    if_neg (by simp [hshows])]

/-- a call fails for depth within the body of a closure, or where a builtin shows data -/
theorem combine_tooDeep {n : Nat} {d : Datum} {f : FrameId} {w w₁ : World} {head : Datum} {args values : List Datum}
    (hd : d.HasShape (.items head args))
    (hvalues : (Datum.evaluate room n).each f (head :: args) (w.entering d) = (.ok values, w₁))
    (h : (Datum.evaluate room n).combine room values w₁ = (.error .tooDeep, w')) :
    ShowsTooDeep room ⟨n + 1, d, f, w⟩ ∨
      ∃ y, Begins room ⟨n + 1, d, f, w⟩ y ∧ y.run room = (.error .tooDeep, w') := by
  cases values with
  | nil => cases h
  | cons function values =>
    cases function with
    | closure params body captured =>
      rw [Evaluator.combine_closure, Evaluator.callClosure, Effect.bind_ok (World.newFrame_call _ _ _ _)] at h
      obtain ⟨front, e, back, vs, w₂, hsplit, hfront, he⟩ := Evaluator.each_error (Evaluator.each_of_sequence_error h)
      exact Or.inr ⟨_, .form hd hvalues hsplit hfront, he⟩
    | builtin b =>
      cases hshows : b.showsWithin room values with
      | false => exact Or.inl ⟨hd, hvalues, hshows⟩
      | true =>
        rw [Evaluator.combine_builtin, Builtin.call_of_showsWithin hshows] at h
        exact absurd (Prod.mk.inj h).1 (Semantics.result_ne_tooDeep b values)
    | _ => cases h

/-- a fault for depth: there is no depth left, or a builtin shows data, or the fault came up inside -/
theorem tooDeep_cases (h : x.run room = (.error .tooDeep, w')) :
    x.depth = 0 ∨ x.ShowsTooDeep room ∨ ∃ y, Begins room x y ∧ y.run room = (.error .tooDeep, w') := by
  obtain ⟨depth, d, f, w⟩ := x
  cases depth with
  | zero => exact Or.inl rfl
  | succ n =>
    refine Or.inr ?_
    have hd := d.hasShape_shape
    rw [run_eq n d f w hd] at h
    generalize d.shape = shape at hd h
    cases shape with
    | value v => cases h
    | name x =>
      rw [Shape.perform, Run.lookup] at h
      split at h <;> cases h
    | items head args =>
      rw [perform_items] at h
      rcases Effect.bind_eq_error h with heach | ⟨values, w₁, hvalues, hcombine⟩
      · obtain ⟨front, e, back, vs, w₁, hsplit, hfront, he⟩ := Evaluator.each_error heach
        exact Or.inr ⟨_, .item hd hsplit hfront, he⟩
      · exact combine_tooDeep hd hvalues hcombine
    | define x body =>
      rcases Effect.bind_eq_error h with hbody | ⟨v, w₁, -, hrest⟩
      · exact Or.inr ⟨_, .define hd, hbody⟩
      · cases hrest
    | conditional condition consequent alternative =>
      rcases Effect.bind_eq_error h with hcondition | ⟨v, w₁, hcondition, hbranch⟩
      · exact Or.inr ⟨_, .condition hd, hcondition⟩
      · cases hv : v.holds with
        | true =>
          rw [if_pos hv] at hbranch
          exact Or.inr ⟨_, .consequent hd hcondition hv, hbranch⟩
        | false =>
          rw [if_neg (by simp [hv])] at hbranch
          cases alternative with
          | none => cases hbranch
          | some alternative => exact Or.inr ⟨_, .alternative hd hcondition hv, hbranch⟩
    | block bindings body =>
      rw [Shape.perform, Effect.bind_ok (World.newFrame_block w d f)] at h
      rcases Effect.bind_eq_error h with hfill | ⟨u, w₁, hfill, hbody⟩
      · rcases Evaluator.fill_error hfill with ⟨b, hb⟩ | ⟨front, x, e, back, w₁, hsplit, hfront, he⟩
        · cases hb
        · exact Or.inr ⟨_, .binding hd hsplit hfront, he⟩
      · exact Or.inr ⟨_, .body hd hfill, hbody⟩
    | function params body => cases h
    | malformed fault =>
      cases h
      exact absurd rfl (Semantics.shape_ne_tooDeep hd)

theorem Begins.depth_eq (h : Begins room x y) : x.depth = y.depth + 1 := by
  cases h <;> rfl

/-- **The origins of a fault for depth**: somewhere inside there is no depth left, or a builtin is called that would
show data that are nested too deeply -/
theorem run_tooDeep_iff :
    (x.run room).1 = .error .tooDeep ↔ ∃ y, Inside room x y ∧ (y.depth = 0 ∨ y.ShowsTooDeep room) := by
  constructor
  · intro h
    have hrun : ∃ w', x.run room = (.error .tooDeep, w') := ⟨_, Prod.ext h rfl⟩
    obtain ⟨w', hrun⟩ := hrun
    clear h
    -- an evaluation that is begun has less depth left
    induction hdepth : x.depth generalizing x with
    | zero => exact ⟨x, .refl, Or.inl hdepth⟩
    | succ n ih =>
      rcases tooDeep_cases hrun with hzero | hshows | ⟨y, hy, hyrun⟩
      · exact ⟨x, .refl, Or.inl hzero⟩
      · exact ⟨x, .refl, Or.inr hshows⟩
      · have hless : y.depth = n := by
          rw [hy.depth_eq] at hdepth
          exact Nat.succ.inj hdepth
        obtain ⟨z, hz, horigin⟩ := ih hyrun hless
        exact ⟨z, .head hy hz, horigin⟩
  · rintro ⟨y, hy, horigin⟩
    have hyrun : (y.run room).1 = .error .tooDeep := by
      rcases horigin with hzero | hshows
      · obtain ⟨depth, d, f, w⟩ := y
        cases hzero
        rfl
      · exact hshows.run_eq
    rw [hy.run_error (Prod.ext hyrun rfl)]

end Evaluation

/-! ## Without closures -/

namespace Datum

/-- the datum makes a closure if it is evaluated to its end: it is a function form, or it evaluates one -/
inductive MakesFunction : Datum → Prop
  | form {d : Datum} {params : List String} {body : List Datum} (h : d.HasShape (.function params body)) :
    MakesFunction d
  | part {d e : Datum} (he : e ∈ d.shape.evaluated) (h : MakesFunction e) : MakesFunction d

def IsClosure (d : Datum) : Prop := ∃ params body frame, d = .closure params body frame

/-- a datum is no closure, nor does it hold one -/
def NoClosure (d : Datum) : Prop := ∀ params body frame, ¬ (Datum.closure params body frame).HeldIn d

variable {d e : Datum}

theorem free_isClosure_iff : d.Free IsClosure ↔ d.NoClosure := by
  constructor
  · intro h params body frame hheld
    exact h _ hheld.inside ⟨params, body, frame, rfl⟩
  · rintro h c hc ⟨params, body, frame, rfl⟩
    obtain ⟨params', body', frame', hheld⟩ := exists_inside_closure_iff.1 ⟨params, body, frame, hc⟩
    exact h params' body' frame' hheld

/-- data without function forms make no closures -/
theorem confines_isClosure : Confines (fun d => d.Parsed ∧ ¬ d.MakesFunction) IsClosure where
  onlyFunctions := by
    rintro d ⟨params, body, frame, rfl⟩
    rfl
  free := by
    rintro d ⟨hd, -⟩ c hc ⟨params, body, frame, rfl⟩
    cases hd.of_inside hc
  part d e hd he := ⟨hd.1.of_inside (inside_of_mem_evaluated he), fun h => hd.2 (.part he h)⟩
  made d params body frame hd hshape := absurd (.form hshape) hd.2
  body params body frame h := absurd ⟨params, body, frame, rfl⟩ h

/-- function forms have a keyword -/
theorem MakesFunction.inside (h : d.MakesFunction) : (identifier SpecialForm.function.keyword).Inside d := by
  induction h with
  | form h =>
    cases h
    exact .item List.mem_cons_self .self
  | part he _ ih => exact ih.trans (inside_of_mem_evaluated he)

theorem HeldIn.nestedWithin (h : e.HeldIn d) {n : Nat} (hd : d.nestedWithin n = true) : e.nestedWithin n = true := by
  induction h generalizing n with
  | self => exact hd
  | @item d items hmem _ ih =>
    cases n with
    | zero =>
      rw [nestedWithin_list_zero] at hd
      cases hd
    | succ n =>
      rw [nestedWithin_list_succ, List.all_eq_true] at hd
      exact nestedWithin_mono (Nat.le_succ n) (ih (hd d hmem))

/-- what is evaluated is nested less -/
theorem nestedWithin_evaluated (he : e ∈ d.shape.evaluated) {n : Nat} (hd : d.nestedWithin n = true) :
    ∃ m, n = m + 1 ∧ e.nestedWithin m = true := by
  obtain ⟨items, c, rfl, hc, hheld⟩ := heldIn_item_of_mem_evaluated he
  cases n with
  | zero =>
    rw [nestedWithin_list_zero] at hd
    cases hd
  | succ m =>
    rw [nestedWithin_list_succ, List.all_eq_true] at hd
    exact ⟨m, rfl, hheld.nestedWithin (hd c hc)⟩

end Datum

namespace Evaluation

variable {room : Nat} {x y : Evaluation} {code bad : Datum → Prop}

/-- code is to be evaluated where no frame holds anything bad -/
structure Settled (code bad : Datum → Prop) (x : Evaluation) : Prop where
  code : code x.datum
  store : x.world.store.All (Free bad)

theorem each_settled (hc : Confines code bad) {n : Nat} {f : FrameId} {ds vs : List Datum} {w w' : World}
    (hds : ∀ d ∈ ds, code d) (h : w.store.All (Free bad))
    (heach : (Datum.evaluate room n).each f ds w = (.ok vs, w')) :
    w'.store.All (Free bad) ∧ ∀ v ∈ vs, v.Free bad := by
  have hw : w.Clean bad w.printed := ⟨h, fun _ => rfl⟩
  obtain ⟨hw', hvs⟩ := (Evaluator.each_clean (Datum.evaluate_clean hc room n) hw hds).of_ok heach
  exact ⟨hw'.store, hvs⟩

theorem fill_settled (hc : Confines code bad) {n : Nat} {f : FrameId} {bindings : List Datum} {w w' : World}
    (hbindings : ∀ x e, Datum.list [.identifier x, e] ∈ bindings → code e) (h : w.store.All (Free bad))
    (hfill : (Datum.evaluate room n).fill f bindings w = (.ok (), w')) : w'.store.All (Free bad) := by
  have hw : w.Clean bad w.printed := ⟨h, fun _ => rfl⟩
  exact ((Evaluator.fill_clean (Datum.evaluate_clean hc room n) hw hbindings).of_ok hfill).1.store

/-- **Where closures are bad, evaluation stays inside of the datum**: what it begins is among what the datum evaluates,
and is code where no frame holds anything bad -/
theorem Begins.confined (hc : Confines code bad) (hclosure : ∀ params body g, bad (.closure params body g))
    (h : Begins room x y) (hx : x.Settled code bad) :
    y.datum ∈ x.datum.shape.evaluated ∧ y.Settled code bad := by
  have hpart := fun e => hc.part x.datum e hx.code
  suffices hy : y.datum ∈ x.datum.shape.evaluated ∧ y.world.store.All (Free bad) from
    ⟨hy.1, hpart _ hy.1, hy.2⟩
  cases h with
  | @item n d f w head args front e back vs w' hd hsplit hfront =>
    simp only [hd.shape_eq, Shape.evaluated, hsplit] at hpart ⊢
    have hstore : (w.entering d).store.All (Free bad) := hx.store
    exact ⟨by simp, (each_settled hc (fun c hmem => hpart c (by simp [hmem])) hstore hfront).1⟩
  | @form n d f w head args params body captured values w₁ front e back vs w' hd hvalues _ _ =>
    simp only [hd.shape_eq, Shape.evaluated] at hpart
    have hstore : (w.entering d).store.All (Free bad) := hx.store
    -- no value is a closure
    have hfunction := (each_settled hc hpart hstore hvalues).2 _ List.mem_cons_self
    exact absurd (hclosure params body captured) (Datum.free_closure.1 hfunction).1
  | define hd => exact ⟨by simp [hd.shape_eq, Shape.evaluated], hx.store⟩
  | condition hd => exact ⟨by simp [hd.shape_eq, Shape.evaluated], hx.store⟩
  | @consequent n d f w condition consequent alternative v w' hd hcondition _ =>
    have hcode : code condition := hpart _ (by simp [hd.shape_eq, Shape.evaluated])
    have hout := (Datum.evaluate_clean_outcome hc room n f (w := w.entering d) hcode hx.store).2.store
    rw [hcondition] at hout
    exact ⟨by simp [hd.shape_eq, Shape.evaluated], hout⟩
  | @alternative n d f w condition consequent alternative v w' hd hcondition _ =>
    have hcode : code condition := hpart _ (by simp [hd.shape_eq, Shape.evaluated])
    have hout := (Datum.evaluate_clean_outcome hc room n f (w := w.entering d) hcode hx.store).2.store
    rw [hcondition] at hout
    exact ⟨by simp [hd.shape_eq, Shape.evaluated], hout⟩
  | @binding n d f w bindings body front z e back w' hd hsplit hfront =>
    simp only [hd.shape_eq, Shape.mem_evaluated_block] at hpart ⊢
    have hinner : (w.enteringBlock d f).store.All (Free bad) := Store.All.push hx.store Bindings.all_nil _
    refine ⟨Or.inr ⟨z, by simp [hsplit]⟩, fill_settled hc (fun y c hb => ?_) hinner hfront⟩
    exact hpart c (Or.inr ⟨y, by simp [hsplit, hb]⟩)
  | @body n d f w bindings body w' hd hbindings =>
    simp only [hd.shape_eq, Shape.mem_evaluated_block] at hpart ⊢
    have hinner : (w.enteringBlock d f).store.All (Free bad) := Store.All.push hx.store Bindings.all_nil _
    refine ⟨Or.inl trivial, fill_settled hc (fun y c hb => ?_) hinner hbindings⟩
    exact hpart c (Or.inr ⟨y, hb⟩)

/-- so no evaluation inside is deeper than the datum is nested -/
theorem Inside.depth_le (hc : Confines code bad) (hclosure : ∀ params body g, bad (.closure params body g))
    (h : Inside room x y) (hx : x.Settled code bad) {n : Nat} (hn : x.datum.nestedWithin n = true) :
    x.depth ≤ y.depth + n := by
  suffices hy : y.Settled code bad ∧ ∃ m, y.datum.nestedWithin m = true ∧ x.depth + m ≤ y.depth + n by
    obtain ⟨-, m, -, hm⟩ := hy
    omega
  induction h with
  | refl => exact ⟨hx, n, hn, le_rfl⟩
  | @tail y z _ hbegins ih =>
    obtain ⟨hy, m, hm, hle⟩ := ih
    obtain ⟨hmem, hz⟩ := hbegins.confined hc hclosure hy
    obtain ⟨k, rfl, hk⟩ := Datum.nestedWithin_evaluated hmem hm
    have hdepth := hbegins.depth_eq
    exact ⟨hz, k, hk, by omega⟩

end Evaluation

/-! ## Main statement -/

theorem Fault.kind_eq_depth_iff {fault : Fault} : fault.kind = .depth ↔ fault = .tooDeep := by
  cases fault <;> simp [kind]

/-- **Evaluation without closures ends.** Let no frame hold a closure, and let a datum that was read make none. Then
there are never more evaluations under way at a time than the datum is nested, and one, so that a limit of so many is
never hit. The evaluation ends with a value or with a fault of the language, unless a builtin is called in it that would
show data that are nested too deeply, in what it prints or in its message; then it ends with that. The value holds no
closure, and no frame holds one after it, however it ends. -/
theorem evaluation_without_closures_ends {w : World} (hstore : w.store.All Datum.NoClosure) {e : Datum}
    (he : e.Parsed) (hfunction : ¬ e.MakesFunction) {n : Nat} (hnested : e.nestedWithin n = true) {depth : Nat}
    (hdepth : n < depth) (room : Nat) (f : FrameId) :
    let x : Evaluation := ⟨depth, e, f, w⟩
    let shows := ∃ y, Evaluation.Inside room x y ∧ y.ShowsTooDeep room
    (∀ y, Evaluation.Inside room x y → depth ≤ y.depth + n) ∧
      (¬ shows → (∃ v, (x.run room).1 = .ok v) ∨ ∃ fault, (x.run room).1 = .error fault ∧ fault.kind ≠ .depth) ∧
      (shows → (x.run room).1 = .error .tooDeep) ∧
      (∀ v, (x.run room).1 = .ok v → v.NoClosure) ∧ (x.run room).2.store.All Datum.NoClosure := by
  intro x shows
  have hc := Datum.confines_isClosure
  have hfree : w.store.All (Free Datum.IsClosure) := hstore.mono fun v hv => Datum.free_isClosure_iff.2 hv
  have hlevels : ∀ y, Evaluation.Inside room x y → depth ≤ y.depth + n := fun y hy =>
    hy.depth_le hc (fun params body g => ⟨params, body, g, rfl⟩) ⟨⟨he, hfunction⟩, hfree⟩ hnested
  obtain ⟨hvalue, hclean⟩ := Datum.evaluate_clean_outcome hc room depth f ⟨he, hfunction⟩ hfree
  refine ⟨hlevels, fun hnone => ?_, ?_, fun v hv => ?_, ?_⟩
  · cases hrun : (x.run room).1 with
    | ok v => exact Or.inl ⟨v, rfl⟩
    | error fault =>
      refine Or.inr ⟨fault, rfl, fun hkind => ?_⟩
      -- neither of the two origins of a fault for depth is there
      rw [Fault.kind_eq_depth_iff.1 hkind] at hrun
      obtain ⟨y, hy, hzero | hshows⟩ := Evaluation.run_tooDeep_iff.1 hrun
      · have := hlevels y hy
        omega
      · exact hnone ⟨y, hy, hshows⟩
  · rintro ⟨y, hy, hshows⟩
    exact Evaluation.run_tooDeep_iff.2 ⟨y, hy, Or.inr hshows⟩
  · exact Datum.free_isClosure_iff.1 (hvalue v hv)
  · exact hclean.store.mono fun v hv => Datum.free_isClosure_iff.1 hv

/-- a definition by a let form with a call in it, six evaluations deep -/
theorem definition_without_closures_ends :
    let s : Store := .push .empty (("xs", .list [.text "a"]) :: Builtin.bindings) none
    let e := Datum.ofForm .define [.identifier "y", Datum.ofForm .block
      [.list [.list [.identifier "x", .list [.identifier "first", .identifier "xs"]]], .identifier "x"]]
    let x : Evaluation := ⟨6, e, 0, ⟨s, "", #[]⟩⟩
    s.All Datum.NoClosure ∧ e.Parsed ∧ ¬ e.MakesFunction ∧ e.nestedWithin 5 = true ∧
      (x.run 1).1 = .ok (.text "a") ∧ (∀ y, Evaluation.Inside 1 x y → 1 ≤ y.depth) ∧
      (x.run 1).2.store.All Datum.NoClosure := by
  intro s e x
  have hstore : s.All Datum.NoClosure := by
    have hlist : (Datum.list [.text "a"]).NoClosure := by
      rintro params body frame (_ | ⟨hmem, h⟩)
      rw [List.mem_singleton.1 hmem] at h
      cases h
    have hbuiltins : Builtin.bindings.All Datum.NoClosure := by
      rintro pair hpair params body frame h
      obtain ⟨b, -, rfl⟩ := List.mem_map.1 hpair
      cases h
    exact Store.all_empty.push (List.forall_mem_cons.2 ⟨hlist, hbuiltins⟩) none
  have he : e.Parsed := by
    simp [e, Datum.ofForm, Datum.identifier, Datum.parsed_list, Datum.Parsed.atom]
  have hfunction : ¬ e.MakesFunction := by
    intro h
    have hkeyword := h.inside
    simp [e, Datum.ofForm, Datum.identifier, Datum.inside_list, Datum.inside_atom, SpecialForm.keyword] at hkeyword
  have hnested : e.nestedWithin 5 = true := by decide
  obtain ⟨hlevels, -, -, -, hafter⟩ :=
    evaluation_without_closures_ends (w := ⟨s, "", #[]⟩) hstore he hfunction hnested (by decide : 5 < 6) 1 0
  refine ⟨hstore, he, hfunction, hnested, ?_, fun y hy => ?_, hafter⟩
  · simp only [x, e, s]
    cbv
  · have := hlevels y hy
    omega

/-- lists of one item in each other -/
def Datum.nest : Nat → Datum
  | 0 => .absent
  | n + 1 => .list [nest n]

theorem Datum.nestedWithin_nest (n limit : Nat) : (nest n).nestedWithin limit = decide (n ≤ limit) := by
  induction n generalizing limit with
  | zero => simp [nest, nestedWithin]
  | succ n ih =>
    cases limit with
    | zero => simp [nest, nestedWithin_list_zero]
    | succ limit => simp [nest, nestedWithin_list_succ, ih]

theorem Datum.noClosure_nest (n : Nat) : (nest n).NoClosure := by
  intro params body frame h
  induction n with
  | zero => cases h
  | succ n ih =>
    rcases h with _ | ⟨hmem, h⟩
    rw [List.mem_singleton.1 hmem] at h
    exact ih h

/-- a value that was bound before is nested more deeply than what is shown, so that it cannot be printed -/
theorem deep_value_is_not_shown :
    ¬ ∀ (w : World) (e : Datum) (n : Nat) (f : FrameId), w.store.All Datum.NoClosure → e.Parsed → ¬ e.MakesFunction →
      e.nestedWithin n = true → n < Limits.standard.evaluation →
      (∃ v, (e.value .standard f w).1 = .ok v) ∨
        ∃ fault, (e.value .standard f w).1 = .error fault ∧ fault.kind ≠ .depth := by
  intro h
  let room := Limits.standard.display
  let depth := Limits.standard.evaluation - 1
  let deep := Datum.nest (room + 1)
  let w : World := ⟨.push .empty [("print", .builtin .print), ("v", deep)] none, "", #[]⟩
  let e := Datum.list [.identifier "print", .identifier "v"]
  have hstore : w.store.All Datum.NoClosure := by
    refine Store.all_empty.push (List.forall_mem_cons.2 ⟨?_, List.forall_mem_singleton.2 ?_⟩) none
    · rintro params body frame ⟨⟩
    · exact Datum.noClosure_nest _
  have he : e.Parsed := by
    simp [e, Datum.identifier, Datum.parsed_list, Datum.Parsed.atom]
  have hfunction : ¬ e.MakesFunction := by
    intro hmakes
    have hkeyword := hmakes.inside
    simp [e, Datum.identifier, Datum.inside_list, Datum.inside_atom, SpecialForm.keyword] at hkeyword
  -- the call is made, with a value that is one list too deep
  have hd : e.HasShape (.items (.identifier "print") [.identifier "v"]) := .items (Datum.noKeyword_iff.2 rfl) _
  have hframe : w.store.frame? 0 = some ⟨[("print", .builtin .print), ("v", deep)], none⟩ := rfl
  have hprint : Run.lookup 0 "print" (w.entering e) = (.ok (.builtin .print), w.entering e) :=
    Run.lookup_ok (Store.lookup?_here hframe rfl)
  have hv : Run.lookup 0 "v" (w.entering e) = (.ok deep, w.entering e) := Run.lookup_ok (Store.lookup?_here hframe rfl)
  have hvalues : (Datum.evaluate room depth).each 0 [.identifier "print", .identifier "v"] (w.entering e)
      = (.ok [.builtin .print, deep], w.entering e) := by
    have hargs : (Datum.evaluate room depth).each 0 [.identifier "v"] (w.entering e)
        = (.ok [deep], w.entering e) := Effect.bind_ok hv _
    exact (Effect.bind_ok hprint _).trans (Effect.bind_ok hargs _)
  have hshows : Builtin.print.showsWithin room [deep] = false := by
    have hdeep : deep.nestedWithin room = false := by simp [deep, Datum.nestedWithin_nest]
    simp [Builtin.showsWithin, Builtin.shown, Builtin.operand, hdeep]
  have hvalue : e.value .standard 0 w = Evaluation.run room ⟨depth + 1, e, 0, w⟩ := rfl
  have hrun : (e.value .standard 0 w).1 = .error .tooDeep := by
    rw [hvalue]
    exact (Evaluation.ShowsTooDeep.intro hd hvalues hshows).run_eq
  rcases h w e 1 0 hstore he hfunction (by decide) (by decide) with ⟨v, hok⟩ | ⟨fault, herror, hkind⟩
  · rw [hrun] at hok
    cases hok
  · rw [hrun] at herror
    cases herror
    exact hkind rfl

end FrameLisp
