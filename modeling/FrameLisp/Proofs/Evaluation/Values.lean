/-
Values evaluate to themselves.

Code and values are data of one type, so a value can be evaluated like a piece of code. What is no list comes to itself
at once: names and keywords are leaves of a program text, and no value is such a leaf, whatever a text in it spells. A
list comes to the list of the values of its items, which is the same list again, unless the first of them is a function
that is called. So a value in which no list starts with a function (`Datum.Inert`) comes to itself in every frame, and
nothing else happens (`Datum.IsValue.evaluatesToItself`, by induction on the value). Each list with something in it
takes one level of evaluation more than its items (`Datum.levels`); where that is more than there is left, the
evaluation stops for depth.

All that evaluation gives are values (`Datum.IsValue`), if all that frames bind are values; and this is kept, however
the evaluation ends (`Datum.evaluate_isValue`, from `Evaluator.perform_valued` for one level).

Results:
- `values_evaluate_to_themselves`: this for values, and for what an evaluation has come to.
- `displayed_value_evaluates_to_itself`: what is nested within the limit of printing is within that of evaluation.
- `Session.after_isValue`: all that frames of sessions bind are values.
Refutation:
- `deep_value_is_not_evaluated`: a list can be nested too deeply to be evaluated.
-/
import FrameLisp.Proofs.Evaluation.Bounded

namespace FrameLisp

namespace Datum

/-! ## Values -/

/-- numbers, texts, the absent value, functions, and lists of values -/
inductive IsValue : Datum → Prop
  | absent : IsValue .absent
  | number (x : Float) : IsValue (.number x)
  | text (s : String) : IsValue (.text s)
  | closure (params : List String) (body : List Datum) (frame : FrameId) : IsValue (.closure params body frame)
  | builtin (b : Builtin) : IsValue (.builtin b)
  | list {items : List Datum} (h : ∀ d ∈ items, IsValue d) : IsValue (.list items)

/-- no list of a datum, at whatever depth it stands, starts with a function -/
def Inert (d : Datum) : Prop := ∀ head items, (Datum.list (head :: items)).HeldIn d → head.isFunction = false

variable {d v head : Datum} {items : List Datum}

theorem isValue_list : (Datum.list items).IsValue ↔ ∀ d ∈ items, d.IsValue := by
  constructor
  · rintro (_ | _ | _ | _ | _ | h)
    exact h
  · exact .list

theorem itemwise_isValue : Itemwise IsValue where
  absent := .absent
  number := .number
  text := .text
  list_iff := isValue_list

/-- no value starts a special form -/
theorem IsValue.specialForm? (h : d.IsValue) : d.specialForm? = none := by
  cases h <;> rfl

/-- what is its own value is a value, and so is the value of a number or text of a program -/
theorem isValue_of_shape (h : d.shape = .value v) : v.IsValue := by
  have hshape := hasShape_shape d
  rw [h] at hshape
  cases hshape with
  | number x => exact .number x
  | string s => exact .text s
  | empty => exact .list (by simp)
  | value hatom hlist =>
    cases d with
    | atom a => exact absurd rfl (hatom a)
    | list items => exact absurd rfl (hlist items)
    | absent => exact .absent
    | number x => exact .number x
    | text s => exact .text s
    | closure params body frame => exact .closure params body frame
    | builtin b => exact .builtin b

theorem Inert.item (h : (Datum.list items).Inert) (hmem : d ∈ items) : d.Inert :=
  fun head rest hheld => h head rest (.item hmem hheld)

theorem inert_of_not_list (h : ∀ items, d ≠ .list items) : d.Inert := by
  rintro head rest (_ | _)
  · exact absurd rfl (h (head :: rest))
  · exact absurd rfl (h _)

theorem inert_nil : (Datum.list []).Inert := by
  rintro head rest (_ | ⟨hmem, -⟩)
  exact absurd hmem List.not_mem_nil

theorem inert_cons : (Datum.list (head :: items)).Inert ↔ head.isFunction = false ∧ ∀ d ∈ head :: items, d.Inert := by
  constructor
  · intro h
    exact ⟨h head items .self, fun d hmem => h.item hmem⟩
  · rintro ⟨hhead, hitems⟩ first rest (_ | ⟨hmem, hheld⟩)
    · exact hhead
    · exact hitems _ hmem first rest hheld

/-! ## Levels -/

mutual

/-- so many evaluations are under way at a time where a datum comes to itself: its own, and for a list those of the
item that takes most -/
def levels : Datum → Nat
  | .list items => levelsAll items + 1
  | _ => 1

def levelsAll : List Datum → Nat
  | [] => 0
  | d :: ds => max (levels d) (levelsAll ds)

end

theorem levels_list (items : List Datum) : (Datum.list items).levels = levelsAll items + 1 := by
  rw [levels]

theorem levelsAll_le_iff {n : Nat} : levelsAll items ≤ n ↔ ∀ d ∈ items, d.levels ≤ n := by
  induction items with
  | nil => simp [levelsAll]
  | cons d ds ih => rw [levelsAll, max_le_iff, ih, List.forall_mem_cons]

/-- one level more than the lists are nested is enough -/
theorem levels_le_of_nestedWithin {n : Nat} (h : d.nestedWithin n = true) : d.levels ≤ n + 1 := by
  induction d using Datum.induct generalizing n with
  | list items ih =>
    cases n with
    | zero =>
      rw [nestedWithin_list_zero] at h
      cases h
    | succ n =>
      rw [nestedWithin_list_succ, List.all_eq_true] at h
      rw [levels_list, Nat.add_le_add_iff_right, levelsAll_le_iff]
      exact fun d hmem => ih d hmem (h d hmem)
  | _ => simp [levels]

/-! ## Evaluation of values -/

/-- in every frame and world, a datum comes to itself if there are levels enough, else it stops for depth; the world
stays as it is -/
def EvaluatesToItself (d : Datum) : Prop :=
  ∀ room depth frame w, d.evaluate room depth frame w = (if d.levels ≤ depth then .ok d else .error .tooDeep, w)

theorem EvaluatesToItself.of_le (h : d.EvaluatesToItself) {depth : Nat} (hle : d.levels ≤ depth) (room : Nat)
    (frame : FrameId) (w : World) : d.evaluate room depth frame w = (.ok d, w) := by
  rw [h room depth frame w, if_pos hle]

theorem EvaluatesToItself.of_lt (h : d.EvaluatesToItself) {depth : Nat} (hlt : depth < d.levels) (room : Nat)
    (frame : FrameId) (w : World) : d.evaluate room depth frame w = (.error .tooDeep, w) := by
  rw [h room depth frame w, if_neg (Nat.not_le_of_lt hlt)]

/-- a datum that is its own value on the first level -/
theorem evaluatesToItself_of_shape (hshape : d.shape = .value d) (hentered : d.entered = []) (hlevels : d.levels = 1) :
    d.EvaluatesToItself := by
  intro room depth frame w
  cases depth with
  | zero => rw [evaluate_zero, hlevels]; rfl
  | succ depth =>
    rw [evaluate_entering, hshape, World.entering, hentered, hlevels, if_pos (Nat.le_add_left 1 depth)]
    simp [Shape.perform]

/-- data that come to themselves, one after another -/
theorem each_itself (h : ∀ d ∈ items, d.EvaluatesToItself) (room depth : Nat) (frame : FrameId) (w : World) :
    (evaluate room depth).each frame items w = (if levelsAll items ≤ depth then .ok items else .error .tooDeep, w) := by
  induction items with
  | nil => simp [levelsAll, Evaluator.each]
  | cons d ds ih =>
    obtain ⟨hd, hds⟩ := List.forall_mem_cons.1 h
    have hrest := ih hds
    -- the first item that takes too many levels ends it, and none has changed the world before
    rw [Evaluator.each, levelsAll]
    by_cases hle : d.levels ≤ depth
    · rw [Effect.bind_ok (hd.of_le hle room frame w)]
      by_cases hall : levelsAll ds ≤ depth
      · rw [if_pos hall] at hrest
        rw [Effect.bind_ok hrest, if_pos (max_le hle hall)]
        rfl
      · rw [if_neg hall] at hrest
        rw [Effect.bind_error hrest, if_neg (mt le_of_max_le_right hall)]
    · have hdeep := hd.of_lt (Nat.lt_of_not_le hle) room frame w
      rw [Effect.bind_error hdeep, if_neg (mt le_of_max_le_left hle)]

/-- a list that is no special form and no call is the list of the values of its items -/
theorem evaluatesToItself_cons (hform : head.specialForm? = none) (hfunction : head.isFunction = false)
    (h : ∀ d ∈ head :: items, d.EvaluatesToItself) : (Datum.list (head :: items)).EvaluatesToItself := by
  intro room depth frame w
  rw [levels_list]
  cases depth with
  | zero => simp
  | succ depth =>
    -- all items are evaluated first, and only then it shows whether this is a call
    have hstep : evaluate room (depth + 1) (.list (head :: items)) frame = (do
        let values ← (evaluate room depth).each frame (head :: items)
        (evaluate room depth).combine room values) := by
      rw [evaluate_succ, evaluateWith_items hform]
      exact perform_items room (evaluate room depth) frame head items
    have heach := each_itself h room depth frame w
    rw [hstep]
    split at heach
    · next hle =>
      rw [Effect.bind_ok heach, Evaluator.combine_data hfunction, Effect.pure_apply, if_pos (Nat.succ_le_succ hle)]
    · next hle => rw [Effect.bind_error heach, if_neg (mt Nat.le_of_succ_le_succ hle)]

/-- **A value without calls comes to itself** -/
theorem IsValue.evaluatesToItself (h : v.IsValue) (hinert : v.Inert) : v.EvaluatesToItself := by
  induction h with
  | @list items hitems ih =>
    cases items with
    | nil => exact evaluatesToItself_of_shape rfl rfl (by simp [levels_list, levelsAll])
    | cons head items =>
      obtain ⟨hfunction, hparts⟩ := inert_cons.1 hinert
      -- a keyword in front would be a leaf of a program text
      have hform := (hitems head List.mem_cons_self).specialForm?
      exact evaluatesToItself_cons hform hfunction fun d hmem => ih d hmem (hparts d hmem)
  | _ => exact evaluatesToItself_of_shape rfl rfl (by simp [levels])

end Datum

/-! ## What evaluation gives -/

namespace Evaluator

variable {α β : Type} {w : World}

/-- `x` ends where frames bind only values, with a result that meets `ok` or with a fault -/
abbrev StaysValued (x : Run α) (w : World) (ok : α → Prop) : Prop :=
  x.Ends w (fun a w' => w'.store.All Datum.IsValue ∧ ok a) fun _ w' => w'.store.All Datum.IsValue

theorem StaysValued.bind {x : Run α} {next : α → Run β} {ok : α → Prop} {done : β → Prop} (h : StaysValued x w ok)
    (hnext : ∀ a w', w'.store.All Datum.IsValue → ok a → StaysValued (next a) w' done) :
    StaysValued (x >>= next) w done :=
  Effect.Ends.bind h fun a w' ha => hnext a w' ha.1 ha.2

theorem staysValued_pure (h : w.store.All Datum.IsValue) {ok : α → Prop} {a : α} (ha : ok a) :
    StaysValued (pure a) w ok :=
  Effect.ends_of_ok rfl ⟨h, ha⟩

theorem staysValued_fail (h : w.store.All Datum.IsValue) (fault : Fault) (ok : α → Prop) :
    StaysValued (Effect.fail fault) w ok :=
  Effect.ends_of_error rfl h

theorem staysValued_define (h : w.store.All Datum.IsValue) (f : FrameId) (x : String) {v : Datum} (hv : v.IsValue) :
    StaysValued (Effect.define f x v) w fun _ => True :=
  Effect.ends_of_ok rfl ⟨h.define f x hv, trivial⟩

theorem staysValued_newFrame (h : w.store.All Datum.IsValue) {bindings : Bindings}
    (hbindings : bindings.All Datum.IsValue) (outer : Option FrameId) :
    StaysValued (Effect.newFrame bindings outer) w fun _ => True :=
  Effect.ends_of_ok rfl ⟨h.push hbindings outer, trivial⟩

/-- a builtin gives a value for values -/
theorem builtin_valued (h : w.store.All Datum.IsValue) (room : Nat) (b : Builtin) {args : List Datum}
    (hargs : ∀ a ∈ args, a.IsValue) : StaysValued (b.call room args) w Datum.IsValue := by
  have hcall : (b.call room args).EndsIn (fun _ t => t.All Datum.IsValue) (fun _ => True) w fun _ v => v.IsValue :=
    Builtin.call_endsIn h (fun v hv => Datum.itemwise_isValue.result hargs hv) (fun _ _ => trivial) trivial
  exact Effect.Ends.mono hcall (fun v w' hv => hv) fun fault w' hfault => hfault.1

variable {ev : Evaluator}
  (hev : ∀ d f w, w.store.All Datum.IsValue → StaysValued (ev d f) w Datum.IsValue)

include hev

theorem each_valued (h : w.store.All Datum.IsValue) (f : FrameId) (ds : List Datum) :
    StaysValued (ev.each f ds) w fun vs => ∀ v ∈ vs, v.IsValue := by
  induction ds generalizing w with
  | nil => exact staysValued_pure h (by simp)
  | cons d ds ih =>
    refine (hev d f w h).bind ?_
    intro v w₁ h₁ hv
    refine (ih h₁).bind ?_
    intro vs w₂ h₂ hvs
    exact staysValued_pure h₂ (List.forall_mem_cons.2 ⟨hv, hvs⟩)

theorem sequence_valued (h : w.store.All Datum.IsValue) (f : FrameId) {last : Datum} (hlast : last.IsValue)
    (ds : List Datum) : StaysValued (ev.sequence f last ds) w Datum.IsValue := by
  induction ds generalizing w last with
  | nil => exact staysValued_pure h hlast
  | cons d ds ih =>
    refine (hev d f w h).bind ?_
    intro v w₁ h₁ hv
    exact ih h₁ hv

theorem fill_valued (h : w.store.All Datum.IsValue) (f : FrameId) (bindings : List Datum) :
    StaysValued (ev.fill f bindings) w fun _ => True := by
  induction bindings generalizing w with
  | nil => exact staysValued_pure h trivial
  | cons b bindings ih =>
    unfold Evaluator.fill
    split
    · exact staysValued_fail h _ _
    · next x body _ =>
      refine (hev body f w h).bind ?_
      intro v w₁ h₁ hv
      refine (staysValued_define h₁ f x hv).bind ?_
      intro _ w₂ h₂ _
      exact ih h₂

theorem call_valued (h : w.store.All Datum.IsValue) (room : Nat) (function : Datum) {args : List Datum}
    (hargs : ∀ a ∈ args, a.IsValue) : StaysValued (ev.call room function args) w Datum.IsValue := by
  unfold Evaluator.call
  split
  · next params body captured =>
    have hbound := Bindings.all_ofPairs (Bindings.all_ofParams .absent hargs params)
    refine (staysValued_newFrame h hbound _).bind ?_
    intro inner w₁ h₁ _
    exact sequence_valued hev h₁ inner .absent body
  · next b => exact builtin_valued h room b hargs
  · exact staysValued_fail h _ _

/-- each shape gives a value and binds values, where its parts are evaluated so -/
theorem perform_valued (h : w.store.All Datum.IsValue) (room : Nat) (f : FrameId) (d : Datum) :
    StaysValued (d.shape.perform room ev f) w Datum.IsValue := by
  cases hs : d.shape with
  | value v => exact staysValued_pure h (Datum.isValue_of_shape hs)
  | name x =>
    rw [Shape.perform]
    cases hx : w.store.lookup? f x with
    | none => exact Effect.ends_of_error (Run.lookup_error hx) h
    | some v => exact Effect.ends_of_ok (Run.lookup_ok hx) ⟨h, h.lookup hx⟩
  | items head args =>
    refine (hev head f w h).bind ?_
    intro function w₁ h₁ hfunction
    refine (each_valued hev h₁ f args).bind ?_
    intro values w₂ h₂ hvalues
    split
    · exact call_valued hev h₂ room function hvalues
    · exact staysValued_pure h₂ (.list (List.forall_mem_cons.2 ⟨hfunction, hvalues⟩))
  | define x body =>
    refine (hev body f w h).bind ?_
    intro v w₁ h₁ hv
    refine (staysValued_define h₁ f x hv).bind ?_
    intro _ w₂ h₂ _
    exact staysValued_pure h₂ hv
  | conditional condition consequent alternative =>
    refine (hev condition f w h).bind ?_
    intro v w₁ h₁ _
    split
    · exact hev consequent f w₁ h₁
    · cases alternative with
      | none => exact staysValued_pure h₁ .absent
      | some alternative => exact hev alternative f w₁ h₁
  | block bindings body =>
    refine (staysValued_newFrame h Bindings.all_nil _).bind ?_
    intro inner w₁ h₁ _
    refine (fill_valued hev h₁ inner bindings).bind ?_
    intro _ w₂ h₂ _
    exact hev body inner w₂ h₂
  | function params body => exact staysValued_pure h (.closure params body f)
  | malformed fault => exact staysValued_fail h _ _

end Evaluator

/-- **Evaluation gives values and binds values**, where frames bind only values -/
theorem Datum.evaluate_isValue (room depth : Nat) (d : Datum) (f : FrameId) (w : World)
    (h : w.store.All IsValue) : Evaluator.StaysValued (d.evaluate room depth f) w IsValue := by
  induction depth generalizing d f w with
  | zero => exact Evaluator.staysValued_fail h _ _
  | succ depth ih =>
    rw [evaluate_succ, evaluateWith_eq]
    have hnotes : Evaluator.StaysValued (Effect.noteAll d.entered) w fun _ => True :=
      Effect.ends_of_ok (Effect.noteAll_apply _ w) ⟨h, trivial⟩
    refine hnotes.bind ?_
    intro _ w₁ h₁ _
    exact Evaluator.perform_valued ih h₁ room f d

/-! ## Sessions -/

theorem Session.keeps_isValue (limits : Limits) (root : FrameId) :
    Session.Keeps (fun s t => s.All Datum.IsValue → t.All Datum.IsValue) limits root where
  refl _ h := h
  trans _ _ _ hst htu h := htu (hst h)
  value d _ _ h := (d.evaluate_isValue limits.display limits.evaluation root _ h).outcome.1

/-- **Frames of sessions bind values**, whatever a session begins with and whatever its steps come to -/
theorem Session.after_isValue (s : Surroundings) (beginning : Beginning) {w : World} (h : w.store.All Datum.IsValue)
    (steps : List Step) : (after s w.store.size (start s beginning w).2 steps).store.All Datum.IsValue :=
  after_all Datum.IsValue.builtin (keeps_isValue s.limits w.store.size) beginning h steps

/-! ## Main statement -/

/-- **Values evaluate to themselves.** A value in which no list at any depth starts with a function comes to itself in
every frame, where there are levels enough for it, and stops for depth where there are not; nothing is printed or noted
and no frame changes either way. Where frames bind only values, as in all sessions (`Session.after_isValue`), whatever
is evaluated comes to a value, and frames bind only values after it, however it ends; so if no list of that value starts
with a function, evaluating it again gives it again, in that frame and in every other. -/
theorem values_evaluate_to_themselves :
    (∀ v : Datum, v.IsValue → v.Inert → v.EvaluatesToItself) ∧
      ∀ (room depth : Nat) (d : Datum) (f : FrameId) (w : World), w.store.All Datum.IsValue →
        let out := d.evaluate room depth f w
        out.2.store.All Datum.IsValue ∧
          ∀ v, out.1 = .ok v → v.IsValue ∧ (v.Inert → v.EvaluatesToItself) := by
  refine ⟨fun v hv hinert => hv.evaluatesToItself hinert, ?_⟩
  intro room depth d f w h out
  obtain ⟨hstore, hvalue⟩ := (d.evaluate_isValue room depth f w h).outcome
  exact ⟨hstore, fun v hv => ⟨hvalue v hv, (hvalue v hv).evaluatesToItself⟩⟩

/-- texts that spell keywords and a bound name, with functions in places other than the first -/
theorem texts_of_keywords_stay_texts :
    let self := Datum.closure ["x"] [.identifier "x"] 0
    let v := Datum.list [.text "if", .list [], .list [.text "lambda", .builtin .add, .list [.absent, self], .text "x"]]
    let w : World := ⟨.push .empty [("x", .text "define"), ("none", .absent), ("+", .builtin .add)] none, "", #[]⟩
    let e := Datum.list [.atom (.string "if"), .list [], .list [.atom (.string "lambda"), .identifier "+",
      .list [.identifier "none", Datum.ofForm .function [.list [.identifier "x"], .identifier "x"]],
      .atom (.string "x")]]
    v.IsValue ∧ v.Inert ∧ w.store.All Datum.IsValue ∧ v.evaluate 0 4 0 w = (.ok v, w) ∧
      v.evaluate 0 3 0 w = (.error .tooDeep, w) ∧ (e.evaluate 0 4 0 w).1 = .ok v ∧
      ∀ f w', v.value .standard f w' = (.ok v, w') := by
  intro self v w e
  have hlevels : v.levels = 4 := by decide
  have hvalue : v.IsValue := by
    simp [v, self, Datum.isValue_list, Datum.IsValue.text, Datum.IsValue.absent, Datum.IsValue.builtin,
      Datum.IsValue.closure]
  have hinert : v.Inert := by
    simp [v, self, Datum.inert_cons, Datum.inert_nil, Datum.inert_of_not_list, Datum.isFunction]
  have hstore : w.store.All Datum.IsValue := by
    refine Store.all_empty.push ?_ none
    simp [Bindings.All, Datum.IsValue.text, Datum.IsValue.absent, Datum.IsValue.builtin]
  have hrun : (e.evaluate 0 4 0 w).1 = .ok v := by
    simp only [e, v, w, self]
    cbv
  have hself := values_evaluate_to_themselves.1 v hvalue hinert
  have hagain := ((values_evaluate_to_themselves.2 0 4 e 0 w hstore).2 v hrun).2 hinert
  refine ⟨hvalue, hinert, hstore, ?_, ?_, hrun, fun f w' => ?_⟩
  · exact hself.of_le (by rw [hlevels]) 0 0 w
  · exact hself.of_lt (by rw [hlevels]; decide) 0 0 w
  · exact hagain.of_le (by rw [hlevels]; decide) Limits.standard.display f w'

/-- what can be printed can be evaluated again, if less may be shown than evaluated -/
theorem displayed_value_evaluates_to_itself {v : Datum} (hvalue : v.IsValue) (hinert : v.Inert) {limits : Limits}
    (hevaluates : limits.display < limits.evaluation) (hlimit : v.nestedWithin limits.display = true) (f : FrameId)
    (w : World) : v.value limits f w = (.ok v, w) := by
  have hlevels : v.levels ≤ limits.evaluation := (Datum.levels_le_of_nestedWithin hlimit).trans hevaluates
  exact (hvalue.evaluatesToItself hinert).of_le hlevels limits.display f w

namespace Datum

theorem levels_nest (n : Nat) : (nest n).levels = n + 1 := by
  induction n with
  | zero => simp [nest, levels]
  | succ n ih => simp [nest, levels_list, levelsAll, ih]

theorem isValue_nest (n : Nat) : (nest n).IsValue := by
  induction n with
  | zero => exact .absent
  | succ n ih => exact .list (List.forall_mem_singleton.2 ih)

theorem inert_nest (n : Nat) : (nest n).Inert := by
  induction n with
  | zero => exact inert_of_not_list (by simp [nest])
  | succ n ih =>
    refine inert_cons.2 ⟨?_, List.forall_mem_singleton.2 ih⟩
    cases n <;> rfl

end Datum

/-- a list is nested as deep as evaluations may be, which leaves no level for what is in it -/
theorem deep_value_is_not_evaluated :
    ¬ ∀ v : Datum, v.IsValue → v.Inert → ∀ (f : FrameId) (w : World), v.value .standard f w = (.ok v, w) := by
  intro h
  let limit := Limits.standard.evaluation
  have hvalue := Datum.isValue_nest limit
  have hinert := Datum.inert_nest limit
  have hlt : limit < (Datum.nest limit).levels := by
    rw [Datum.levels_nest]
    exact Nat.lt_succ_self _
  have hdeep := (hvalue.evaluatesToItself hinert).of_lt hlt Limits.standard.display 0 .empty
  have hitself := h _ hvalue hinert 0 .empty
  cases (Prod.mk.inj (hdeep.symm.trans hitself)).1

end FrameLisp
