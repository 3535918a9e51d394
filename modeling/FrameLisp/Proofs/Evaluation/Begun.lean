/-
The evaluations inside an evaluation.

An evaluation begins others: of the parts of its datum, and of the forms of the function that it calls. `Begins x y`
says when `x` begins `y` itself, one rule for each place where that happens, and `Inside` goes on from there, through
calls of calls. Whatever `y` comes to, `x` goes on from it: a fault of `y` is the fault of `x`
(`Inside.run_error`), and what `x` does after a value of `y` only adds to the frames that `y` left (`Begins.goes_on`).
An evaluation that begins where everything is in order begins others where everything is in order (`Inside.ready`).
-/
import FrameLisp.Proofs.Evaluation.Distinct

namespace FrameLisp

/-- the evaluation of a datum in a frame, at most so deep, from a world on -/
structure Evaluation where
  depth : Nat
  datum : Datum
  frame : FrameId
  world : World

/-- the world in which the parts of a datum are evaluated: the note about it is made -/
def World.entering (w : World) (d : Datum) : World := { w with notes := w.notes ++ d.entered.toArray }

/-- the world in which the parts of a let form are evaluated: there is a new frame as well -/
def World.enteringBlock (w : World) (d : Datum) (f : FrameId) : World :=
  { w.entering d with store := w.store.push [] (some f) }

/-- the world in which the forms of a closure are evaluated that is called with these values -/
def World.enteringCall (w : World) (params : List String) (captured : FrameId) (values : List Datum) : World :=
  { w with store := w.store.push (Bindings.ofPairs (Bindings.ofParams params values)) (some captured) }

theorem World.newFrame_block (w : World) (d : Datum) (f : FrameId) :
    (Effect.newFrame [] (some f) : Run FrameId) (w.entering d) = (.ok w.store.size, w.enteringBlock d f) := rfl

theorem World.newFrame_call (w : World) (params : List String) (captured : FrameId) (values : List Datum) :
    (Effect.newFrame (Bindings.ofPairs (Bindings.ofParams params values)) (some captured) : Run FrameId) w
      = (.ok w.store.size, w.enteringCall params captured values) := rfl

/-- frames are added, and nothing that is there goes away -/
theorem Store.steady_extends : Store.Steady Store.Extends :=
  ⟨Extends.refl, fun _ _ _ => Extends.trans, fun s _ outer => extends_push s _ (some outer),
    fun s f x v => (changesOnly_define s f x v).extends⟩

theorem Datum.evaluate_entering (room depth : Nat) (d : Datum) (f : FrameId) (w : World) :
    d.evaluate room (depth + 1) f w = d.shape.perform room (evaluate room depth) f (w.entering d) := by
  rw [evaluate_succ, evaluateWith_eq, Effect.bind_ok (Effect.noteAll_apply _ _)]
  rfl

namespace Evaluator

/-- how a conditional goes on from the value of its condition -/
def branch (ev : Evaluator) (f : FrameId) (consequent : Datum) (alternative : Option Datum) (v : Datum) : Run Datum :=
  if v.holds then ev consequent f
  else match alternative with
    | none => pure .absent
    | some alternative => ev alternative f

/-- bindings one after another: those in front first -/
theorem fill_append (ev : Evaluator) (f : FrameId) (front back : List Datum) :
    ev.fill f (front ++ back) = (do
      ev.fill f front
      ev.fill f back) := by
  induction front with
  | nil => rfl
  | cons b bs ih =>
    rw [List.cons_append, Evaluator.fill, Evaluator.fill]
    cases binding? b with
    | none => rfl
    | some binding => simp only [ih, bind_assoc]

/-- the forms of a body one after another: those in front are evaluated for what they do -/
theorem sequence_append {ev : Evaluator} {f : FrameId} {front : List Datum} {w w' : World} {vs : List Datum}
    (h : ev.each f front w = (.ok vs, w')) (last : Datum) :
    ∃ last', ∀ back, ev.sequence f last (front ++ back) w = ev.sequence f last' back w' := by
  induction front generalizing last w vs with
  | nil =>
    cases h
    exact ⟨last, fun _ => rfl⟩
  | cons d ds ih =>
    cases hd : ev d f w with
    | mk r w₁ =>
      cases r with
      | error fault =>
        rw [each, Effect.bind_error hd] at h
        cases h
      | ok v =>
        rw [each, Effect.bind_ok hd] at h
        cases hds : ev.each f ds w₁ with
        | mk r' w₂ =>
          cases r' with
          | error fault =>
            rw [Effect.bind_error hds] at h
            cases h
          | ok values =>
            rw [Effect.bind_ok hds] at h
            cases h
            obtain ⟨last', hlast⟩ := ih hds v
            refine ⟨last', fun back => ?_⟩
            rw [List.cons_append, sequence, Effect.bind_ok hd]
            exact hlast back

end Evaluator

namespace Evaluation

/-- what an evaluation comes to -/
def run (room : Nat) (x : Evaluation) : Except Fault Datum × World := x.datum.evaluate room x.depth x.frame x.world

/-- an evaluation that begins where everything is in order -/
def Ready (x : Evaluation) : Prop := x.world.store.Ready x.frame [x.datum]

/-! ## Where evaluations are begun -/

/-- `x` begins the evaluation `y` itself -/
inductive Begins (room : Nat) : Evaluation → Evaluation → Prop
  /-- the items of a list, from left to right -/
  | item {n d f w head args front e back vs w'} (hd : d.HasShape (.items head args))
    (hsplit : head :: args = front ++ e :: back)
    (hfront : (Datum.evaluate room n).each f front (w.entering d) = (.ok vs, w')) :
    Begins room ⟨n + 1, d, f, w⟩ ⟨n, e, f, w'⟩
  /-- the forms of the closure that is called, in a new frame -/
  | form {n d f w head args params body captured values w₁ front e back vs w'} (hd : d.HasShape (.items head args))
    (hvalues : (Datum.evaluate room n).each f (head :: args) (w.entering d)
      = (.ok (.closure params body captured :: values), w₁))
    (hsplit : body = front ++ e :: back)
    (hfront : (Datum.evaluate room n).each w₁.store.size front
      (w₁.enteringCall params captured values) = (.ok vs, w')) :
    Begins room ⟨n + 1, d, f, w⟩ ⟨n, e, w₁.store.size, w'⟩
  | define {n d f w x body} (hd : d.HasShape (.define x body)) :
    Begins room ⟨n + 1, d, f, w⟩ ⟨n, body, f, w.entering d⟩
  | condition {n d f w condition consequent alternative}
    (hd : d.HasShape (.conditional condition consequent alternative)) :
    Begins room ⟨n + 1, d, f, w⟩ ⟨n, condition, f, w.entering d⟩
  | consequent {n d f w condition consequent alternative v w'}
    (hd : d.HasShape (.conditional condition consequent alternative))
    (hcondition : condition.evaluate room n f (w.entering d) = (.ok v, w')) (hv : v.holds = true) :
    Begins room ⟨n + 1, d, f, w⟩ ⟨n, consequent, f, w'⟩
  | alternative {n d f w condition consequent alternative v w'}
    (hd : d.HasShape (.conditional condition consequent (some alternative)))
    (hcondition : condition.evaluate room n f (w.entering d) = (.ok v, w')) (hv : v.holds = false) :
    Begins room ⟨n + 1, d, f, w⟩ ⟨n, alternative, f, w'⟩
  /-- the values of a let form, in its new frame -/
  | binding {n d f w bindings body front x e back w'} (hd : d.HasShape (.block bindings body))
    (hsplit : bindings = front ++ .list [Datum.identifier x, e] :: back)
    (hfront : (Datum.evaluate room n).fill w.store.size front
      (w.enteringBlock d f) = (.ok (), w')) :
    Begins room ⟨n + 1, d, f, w⟩ ⟨n, e, w.store.size, w'⟩
  | body {n d f w bindings body w'} (hd : d.HasShape (.block bindings body))
    (hbindings : (Datum.evaluate room n).fill w.store.size bindings
      (w.enteringBlock d f) = (.ok (), w')) :
    Begins room ⟨n + 1, d, f, w⟩ ⟨n, body, w.store.size, w'⟩

/-- `y` is `x` or is begun inside `x`, however deep -/
def Inside (room : Nat) : Evaluation → Evaluation → Prop := Relation.ReflTransGen (Begins room)

variable {room : Nat} {x y : Evaluation}

/-! ## How an evaluation goes on -/

theorem run_eq (n : Nat) (d : Datum) (f : FrameId) (w : World) {shape : Shape} (hd : d.HasShape shape) :
    run room ⟨n + 1, d, f, w⟩ = shape.perform room (Datum.evaluate room n) f (w.entering d) := by
  rw [← hd.shape_eq]
  exact Datum.evaluate_entering room n d f w

/-- an evaluation goes on from what the evaluation that it begins comes to -/
theorem Begins.goes_on (h : Begins room x y) :
    ∃ rest : Datum → Run Datum, (∀ v R, Store.Steady R → (rest v).Moves R) ∧
      x.run room = (y.datum.evaluate room y.depth y.frame >>= rest) y.world := by
  have hsteady : ∀ n R, Store.Steady R → ∀ d f, (Datum.evaluate room n d f).Moves R :=
    fun n _ h d f => Datum.evaluate_steady h room n d f
  cases h with
  | @item n d f w head args front e back vs w' hd hsplit hfront =>
    refine ⟨fun v => do
      let values ← (Datum.evaluate room n).each f back
      (Datum.evaluate room n).combine room (vs ++ v :: values), fun v R hR => ?_, ?_⟩
    · refine Evaluator.steady_bind hR (Evaluator.each_steady hR (hsteady n R hR) f back) fun values => ?_
      cases vs ++ v :: values with
      | nil => exact Evaluator.steady_pure hR _
      | cons function args =>
        rw [Evaluator.combine]
        split
        · exact Evaluator.call_steady hR (hsteady n R hR) room function args
        · exact Evaluator.steady_pure hR _
    · rw [run_eq n d f w hd, perform_items, hsplit, Evaluator.each_append]
      simp only [bind_assoc, pure_bind, Evaluator.each]
      rw [Effect.bind_ok hfront]
  | @form n d f w head args params body captured values w₁ front e back vs w' hd hvalues hsplit hfront =>
    refine ⟨fun v => (Datum.evaluate room n).sequence w₁.store.size v back, fun v R hR => ?_, ?_⟩
    · exact Evaluator.sequence_steady hR (hsteady n R hR) _ v back
    · obtain ⟨last, hlast⟩ := Evaluator.sequence_append hfront .absent
      rw [run_eq n d f w hd, perform_items, Effect.bind_ok hvalues, Evaluator.combine_closure,
        Evaluator.callClosure, Effect.bind_ok (World.newFrame_call _ _ _ _), hsplit, hlast]
      rfl
  | @define n d f w z body hd =>
    refine ⟨fun v => do
      Effect.define f z v
      pure v, fun v R hR => ?_, ?_⟩
    · exact Evaluator.steady_bind hR (fun w => hR.define w.store f z v) fun _ => Evaluator.steady_pure hR v
    · rw [run_eq n d f w hd]
      rfl
  | @condition n d f w condition consequent alternative hd =>
    refine ⟨(Datum.evaluate room n).branch f consequent alternative, fun v R hR => ?_, ?_⟩
    · unfold Evaluator.branch
      split
      · exact hsteady n R hR consequent f
      · split
        · exact Evaluator.steady_pure hR _
        · exact hsteady n R hR _ f
    · rw [run_eq n d f w hd]
      rfl
  | @consequent n d f w condition consequent alternative v w' hd hcondition hv =>
    refine ⟨pure, fun v R hR => Evaluator.steady_pure hR v, ?_⟩
    simp only [run_eq n d f w hd, Shape.perform]
    rw [Effect.bind_ok hcondition, if_pos hv, bind_pure]
  | @alternative n d f w condition consequent alternative v w' hd hcondition hv =>
    refine ⟨pure, fun v R hR => Evaluator.steady_pure hR v, ?_⟩
    simp only [run_eq n d f w hd, Shape.perform]
    rw [Effect.bind_ok hcondition, hv, bind_pure]
    rfl
  | @binding n d f w bindings body front z e back w' hd hsplit hfront =>
    refine ⟨fun v => do
      Effect.define w.store.size z v
      (Datum.evaluate room n).fill w.store.size back
      body.evaluate room n w.store.size, fun v R hR => ?_, ?_⟩
    · refine Evaluator.steady_bind hR (fun w' => hR.define w'.store _ z v) fun _ => ?_
      exact Evaluator.steady_bind hR (Evaluator.fill_steady hR (hsteady n R hR) _ back) fun _ => hsteady n R hR body _
    · rw [run_eq n d f w hd, Shape.perform, Effect.bind_ok (World.newFrame_block w d f), hsplit, Evaluator.fill_append]
      simp only [bind_assoc]
      rw [Effect.bind_ok hfront]
      exact congrFun (bind_assoc _ _ _) w'
  | @body n d f w bindings body w' hd hbindings =>
    refine ⟨pure, fun v R hR => Evaluator.steady_pure hR v, ?_⟩
    rw [run_eq n d f w hd, Shape.perform, Effect.bind_ok (World.newFrame_block w d f), Effect.bind_ok hbindings,
      bind_pure]

/-- **No fault is caught**: the fault of an evaluation is the fault of every evaluation around it, with all that was
done until then -/
theorem Inside.run_error (h : Inside room x y) {fault : Fault} {w' : World} (hy : y.run room = (.error fault, w')) :
    x.run room = (.error fault, w') := by
  induction h with
  | refl => exact hy
  | tail _ hbegins ih =>
    refine ih ?_
    obtain ⟨rest, -, hrest⟩ := hbegins.goes_on
    rw [hrest, Effect.bind_error hy]

/-- what holds between stores at every step holds between what an evaluation inside leaves and what is left at last -/
theorem Inside.after (h : Inside room x y) {R : Store → Store → Prop} (hR : Store.Steady R) :
    R (y.run room).2.store (x.run room).2.store := by
  induction h with
  | refl => exact hR.refl _
  | @tail y z _ hbegins ih =>
    refine hR.trans _ _ _ ?_ ih
    obtain ⟨rest, hmoves, hrest⟩ := hbegins.goes_on
    have hz : z.datum.evaluate room z.depth z.frame z.world = z.run room := rfl
    rw [hrest]
    cases hrun : z.run room with
    | mk r w' =>
      rw [hrun] at hz
      cases r with
      | ok v =>
        rw [Effect.bind_ok hz]
        exact hmoves v R hR w'
      | error fault =>
        rw [Effect.bind_error hz]
        exact hR.refl _

/-! ## What is in order where an evaluation is begun -/

/-- what holds between stores at every step holds between the beginnings of an evaluation and of one that it begins -/
theorem Begins.before (h : Begins room x y) {R : Store → Store → Prop} (hR : Store.Steady R) :
    R x.world.store y.world.store := by
  have heach : ∀ n f ds, ((Datum.evaluate room n).each f ds).Moves R := fun n f ds =>
    Evaluator.each_steady hR (Datum.evaluate_steady hR room n) f ds
  have hfill : ∀ n f bindings, ((Datum.evaluate room n).fill f bindings).Moves R := fun n f bindings =>
    Evaluator.fill_steady hR (Datum.evaluate_steady hR room n) f bindings
  cases h with
  | @item n d f w head args front e back vs w' _ _ hfront =>
    have hmoves := heach n f front (w.entering d)
    rwa [hfront] at hmoves
  | @form n d f w head args params body captured values w₁ front e back vs w' _ hvalues _ hfront =>
    have hargs := heach n f (head :: args) (w.entering d)
    rw [hvalues] at hargs
    have hcall := hR.push w₁.store (Bindings.ofParams params values) captured
    have hforms := heach n w₁.store.size front (w₁.enteringCall params captured values)
    rw [hfront] at hforms
    exact hR.trans _ _ _ hargs (hR.trans _ _ _ hcall hforms)
  | define => exact hR.refl _
  | condition => exact hR.refl _
  | @consequent n d f w condition _ _ v w' _ hcondition _ =>
    have hmoves := Datum.evaluate_steady hR room n condition f (w.entering d)
    rwa [hcondition] at hmoves
  | @alternative n d f w condition _ _ v w' _ hcondition _ =>
    have hmoves := Datum.evaluate_steady hR room n condition f (w.entering d)
    rwa [hcondition] at hmoves
  | @binding n d f w bindings body front z e back w' _ _ hfront =>
    have hmoves := hfill n w.store.size front (w.enteringBlock d f)
    rw [hfront] at hmoves
    exact hR.trans _ _ _ (hR.push w.store [] f) hmoves
  | @body n d f w bindings body w' _ hbindings =>
    have hmoves := hfill n w.store.size bindings (w.enteringBlock d f)
    rw [hbindings] at hmoves
    exact hR.trans _ _ _ (hR.push w.store [] f) hmoves

theorem Inside.before (h : Inside room x y) {R : Store → Store → Prop} (hR : Store.Steady R) :
    R x.world.store y.world.store := by
  induction h with
  | refl => exact hR.refl _
  | tail _ hbegins ih => exact hR.trans _ _ _ ih (hbegins.before hR)

/-- values of data that are evaluated where everything is in order have closures of the store that is left -/
theorem each_within {n : Nat} {f : FrameId} {ds vs : List Datum} {w w' : World} (h : w.store.Ready f ds)
    (hds : (Datum.evaluate room n).each f ds w = (.ok vs, w')) :
    w.store.Grown w'.store ∧ ∀ v ∈ vs, v.Within w'.store.size :=
  (Evaluator.each_endsWell (Datum.evaluate_wellFormed room n) h).of_ok hds

theorem fill_grown {n : Nat} {f : FrameId} {bindings : List Datum} {w w' : World} (h : w.store.Ready f bindings)
    (hbindings : (Datum.evaluate room n).fill f bindings w = (.ok (), w')) : w.store.Grown w'.store :=
  ((Evaluator.fill_endsWell (Datum.evaluate_wellFormed room n) h).of_ok hbindings).1

theorem Begins.ready (h : Begins room x y) (hx : x.Ready) : y.Ready := by
  cases h with
  | @item n d f w head args front e back vs w' hd hsplit hfront =>
    have hparts : (w.entering d).store.Ready f (head :: args) := Store.Ready.parts hx hd
    have hitems : (w.entering d).store.Ready f front := hparts.subset (by simp +contextual [hsplit])
    have hgrown := (each_within hitems hfront).1
    exact (hparts.grown hgrown).subset (by simp [hsplit])
  | @form n d f w head args params body captured values w₁ front e back vs w' hd hvalues hsplit hfront =>
    have hparts : (w.entering d).store.Ready f (head :: args) := Store.Ready.parts hx hd
    obtain ⟨hgrown, hwithin⟩ := each_within hparts hvalues
    have hbody := Store.Ready.call hgrown.wellFormed hwithin
    have hforms := (each_within (hbody.subset (by simp +contextual [hsplit])) hfront).1
    exact (hbody.grown hforms).subset (by simp [hsplit])
  | define hd => exact Store.Ready.parts hx hd
  | condition hd => exact (Store.Ready.parts hx hd).head
  | @consequent n d f w condition consequent alternative v w' hd hcondition _ =>
    have hparts := Store.Ready.parts hx hd
    have hends := Datum.evaluate_wellFormed room n condition f (w.entering d) hparts.head
    exact (hparts.tail.grown (hends.of_ok hcondition).1).head
  | @alternative n d f w condition consequent alternative v w' hd hcondition _ =>
    have hparts := Store.Ready.parts hx hd
    have hends := Datum.evaluate_wellFormed room n condition f (w.entering d) hparts.head
    exact (hparts.tail.grown (hends.of_ok hcondition).1).tail.head
  | @binding n d f w bindings body front z e back w' hd hsplit hfront =>
    have hinner := (Store.Ready.parts hx hd).tail.inner
    have hgrown := fill_grown (hinner.subset (by simp +contextual [hsplit])) hfront
    have hrest : w'.store.Ready w.store.size (.list [Datum.identifier z, e] :: back) :=
      (hinner.grown hgrown).subset (by simp +contextual [hsplit])
    exact hrest.binding
  | @body n d f w bindings body w' hd hbindings =>
    have hinner := (Store.Ready.parts hx hd).inner
    exact hinner.head.grown (fill_grown hinner.tail hbindings)

/-- **Evaluations inside begin in order**: where a well-formed store, one of its frames and a datum with closures of it
are at hand at first, they are at every place inside -/
theorem Inside.ready (h : Inside room x y) (hx : x.Ready) : y.Ready := by
  induction h with
  | refl => exact hx
  | tail _ hbegins ih => exact hbegins.ready ih

end Evaluation

end FrameLisp
