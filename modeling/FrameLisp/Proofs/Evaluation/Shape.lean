/-
The shapes of data that evaluation tells apart, and how each of them is written.

A datum is its own value, a name, a list of items, or one of the four special forms, perhaps malformed.
`Datum.shape` decides which and takes the parts out, and evaluation is a note for special forms and then the rule of
the shape (`evaluateWith_eq`). `Datum.HasShape` is the grammar: it says how a datum of each shape is written, and
every datum is written in exactly one way (`hasShape_iff`).
-/
import FrameLisp.Evaluation
import FrameLisp.Proofs.Effect

namespace FrameLisp

/-- what a datum is for evaluation -/
inductive Shape where
  | value (v : Datum)
  | name (x : String)
  | items (head : Datum) (args : List Datum)
  | define (x : String) (body : Datum)
  | conditional (condition consequent : Datum) (alternative : Option Datum)
  | block (bindings : List Datum) (body : Datum)
  | function (params : List String) (body : List Datum)
  /-- a special form that does not have the parts it requires -/
  | malformed (fault : Fault)

namespace Shape

def ofDefine : List Datum → Shape
  | [target, body] =>
    match target.identifier? with
    | some x => .define x body
    | none => .malformed (.notDefinable target)
  | _ => .malformed .defineArity

def ofConditional : List Datum → Shape
  | condition :: consequent :: others => .conditional condition consequent others.head?
  | _ => .malformed .conditionalArity

def ofBlock : List Datum → Shape
  | [.list bindings, body] => .block bindings body
  | _ => .malformed .blockShape

def ofFunction : List Datum → Shape
  | .list params :: body =>
    match Evaluator.paramNames params with
    | .ok names => .function names body
    | .error fault => .malformed fault
  | _ => .malformed .functionShape

/-- a special form from what stands after its keyword -/
def ofForm : SpecialForm → List Datum → Shape
  | .define => ofDefine
  | .conditional => ofConditional
  | .block => ofBlock
  | .function => ofFunction

/-- the data that evaluation goes on with -/
def parts : Shape → List Datum
  | .value _ => []
  | .name _ => []
  | .items head args => head :: args
  | .define _ body => [body]
  | .conditional condition consequent alternative => condition :: consequent :: alternative.toList
  | .block bindings body => body :: bindings
  | .function _ body => body
  | .malformed _ => []

/-- the names that evaluation looks up or binds itself -/
def names : Shape → List String
  | .name x => [x]
  | .define x _ => [x]
  | .function params _ => params
  | _ => []

/-- the rule of a shape, where `ev` evaluates the parts -/
def perform (room : Nat) (ev : Evaluator) (frame : FrameId) : Shape → Run Datum
  | .value v => pure v
  | .name x => Run.lookup frame x
  | .items head args => do
    let function ← ev head frame
    let values ← ev.each frame args
    if function.isFunction then ev.call room function values
    else pure (.list (function :: values))
  | .define x body => do
    let value ← ev body frame
    Effect.define frame x value
    pure value
  | .conditional condition consequent alternative => do
    let value ← ev condition frame
    if value.holds then ev consequent frame
    else match alternative with
      | none => pure .absent
      | some alternative => ev alternative frame
  | .block bindings body => do
    let inner ← Effect.newFrame [] (some frame)
    ev.fill inner bindings
    ev body inner
  | .function params body => pure (.closure params body frame)
  | .malformed fault => Effect.fail fault

end Shape

/-- what becomes of the values of a list: a call if the first one is a function, else the list of them -/
def Evaluator.combine (room : Nat) (ev : Evaluator) : List Datum → Run Datum
  | [] => pure (.list [])
  | function :: values =>
    if function.isFunction then ev.call room function values
    else pure (.list (function :: values))

@[simp] theorem Evaluator.combine_closure (room : Nat) (ev : Evaluator) (params : List String) (body : List Datum)
    (captured : FrameId) (values : List Datum) :
    ev.combine room (.closure params body captured :: values) = ev.callClosure params body captured values := rfl

@[simp] theorem Evaluator.combine_builtin (room : Nat) (ev : Evaluator) (b : Builtin) (values : List Datum) :
    ev.combine room (.builtin b :: values) = b.call room values := rfl

theorem Evaluator.combine_data {v : Datum} (h : v.isFunction = false) (room : Nat) (ev : Evaluator)
    (values : List Datum) : ev.combine room (v :: values) = pure (.list (v :: values)) := by
  simp [combine, h]

theorem perform_items (room : Nat) (ev : Evaluator) (frame : FrameId) (head : Datum) (args : List Datum) :
    (Shape.items head args).perform room ev frame = (do
      let values ← ev.each frame (head :: args)
      ev.combine room values) := by
  simp only [Shape.perform, Evaluator.each, bind_assoc, pure_bind, Evaluator.combine]

theorem Run.lookup_ok {w : World} {f : FrameId} {x : String} {v : Datum} (h : w.store.lookup? f x = some v) :
    Run.lookup f x w = (.ok v, w) := by
  unfold Run.lookup
  rw [h]

theorem Run.lookup_error {w : World} {f : FrameId} {x : String} (h : w.store.lookup? f x = none) :
    Run.lookup f x w = (.error (.unbound x), w) := by
  unfold Run.lookup
  rw [h]

/-- a lookup leaves the world as it is -/
theorem Run.lookup_ends {w : World} {f : FrameId} {x : String} {ok : Datum → World → Prop}
    {failed : Fault → World → Prop} (hok : ∀ v, w.store.lookup? f x = some v → ok v w)
    (hfailed : failed (.unbound x) w) : (Run.lookup f x).Ends w ok failed := by
  cases hx : w.store.lookup? f x with
  | none => exact Effect.ends_of_error (Run.lookup_error hx) hfailed
  | some v => exact Effect.ends_of_ok (Run.lookup_ok hx) (hok v hx)

/-- two lookups, where what the second one finds is what `φ` makes of what the first one finds -/
theorem Run.lookup_coupledAt {R : World → World → Prop} {failed : Fault → Fault → Prop}
    {ok : Store → Datum → Datum → Prop} {φ : Datum → Datum} {w v : World} {f g : FrameId} {x y : String} (hR : R w v)
    (hlookup : v.store.lookup? g y = (w.store.lookup? f x).map φ)
    (hok : ∀ u, w.store.lookup? f x = some u → ok w.store u (φ u)) (hfailed : failed (.unbound x) (.unbound y)) :
    Effect.CoupledAt R failed ok (Run.lookup f x) (Run.lookup g y) w v := by
  cases hx : w.store.lookup? f x with
  | none =>
    rw [hx] at hlookup
    exact Or.inr ⟨_, _, _, _, Run.lookup_error hx, Run.lookup_error hlookup, hR, hfailed⟩
  | some u =>
    rw [hx] at hlookup
    exact Or.inl ⟨_, _, _, _, Run.lookup_ok hx, Run.lookup_ok hlookup, hR, hok u hx⟩

theorem Evaluator.binding?_eq_some_iff {b : Datum} {x : String} {body : Datum} :
    binding? b = some (x, body) ↔ b = .list [.atom (.identifier x), body] := by
  refine ⟨?_, ?_⟩
  · intro h
    unfold binding? at h
    split at h
    · cases h
      rfl
    · cases h
  · rintro rfl
    rfl

namespace Datum

def shape : Datum → Shape
  | .atom (.identifier x) => .name x
  | .atom (.number x) => .value (.number x)
  | .atom (.string s) => .value (.text s)
  | .list [] => .value (.list [])
  | .list (head :: args) =>
    match head.specialForm? with
    | some form => Shape.ofForm form args
    | none => .items head args
  | d => .value d

/-- the note that evaluation leaves before it goes by the rule of a special form -/
def entered : Datum → List Note
  | .list (head :: args) => (head.specialForm?.map fun form => Note.entered form args).toList
  | _ => []

theorem form_eq_perform (room : Nat) (ev : Evaluator) (frame : FrameId) (form : SpecialForm) (args : List Datum) :
    ev.form frame form args = (Shape.ofForm form args).perform room ev frame := by
  cases form with
  | define =>
    show ev.define frame args = (Shape.ofDefine args).perform room ev frame
    unfold Evaluator.define
    split
    · next target body =>
      dsimp only [Shape.ofDefine]
      cases target.identifier? <;> rfl
    · next h => rw [Shape.ofDefine.eq_2 args h, Shape.perform]
  | conditional =>
    show ev.conditional frame args = (Shape.ofConditional args).perform room ev frame
    unfold Evaluator.conditional
    split
    · next condition consequent others => cases others <;> rfl
    · next h => rw [Shape.ofConditional.eq_2 args h, Shape.perform]
  | block =>
    show ev.block frame args = (Shape.ofBlock args).perform room ev frame
    unfold Evaluator.block
    split
    · rfl
    · next h => rw [Shape.ofBlock.eq_2 args h, Shape.perform]
  | function =>
    show Evaluator.function frame args = (Shape.ofFunction args).perform room ev frame
    unfold Evaluator.function
    split
    · next params body =>
      dsimp only [Shape.ofFunction]
      cases Evaluator.paramNames params <;> rfl
    · next h => rw [Shape.ofFunction.eq_2 args h, Shape.perform]

/-- **One level of evaluation, by shape.** -/
theorem evaluateWith_eq (room : Nat) (ev : Evaluator) (d : Datum) (frame : FrameId) :
    evaluateWith room ev d frame = (do
      Effect.noteAll d.entered
      d.shape.perform room ev frame) := by
  cases d with
  | atom a => cases a <;> rfl
  | list items =>
    cases items with
    | nil => rfl
    | cons head args =>
      cases hform : head.specialForm? with
      | some form =>
        rw [evaluateWith_form hform, form_eq_perform room]
        simp only [entered, shape, hform]
        rfl
      | none =>
        rw [evaluateWith_items hform]
        simp only [entered, shape, hform]
        rfl
  | _ => rfl

/-! ## The grammar -/

/-- the name of an identifier, as code -/
def identifier (x : String) : Datum := .atom (.identifier x)

/-- the list with which a program writes a special form -/
def ofForm (form : SpecialForm) (parts : List Datum) : Datum := .list (identifier form.keyword :: parts)

/-- whether a datum starts no special form -/
def NoKeyword (head : Datum) : Prop := ∀ form : SpecialForm, head ≠ identifier form.keyword

/-- whether a datum is no identifier -/
def NoIdentifier (d : Datum) : Prop := ∀ x, d ≠ identifier x

/-- **The grammar**: how a datum of each shape is written, and in which ways a special form is malformed. -/
inductive HasShape : Datum → Shape → Prop
  | number (x : Float) : HasShape (.atom (.number x)) (.value (.number x))
  | string (s : String) : HasShape (.atom (.string s)) (.value (.text s))
  | name (x : String) : HasShape (identifier x) (.name x)
  | empty : HasShape (.list []) (.value (.list []))
  | value {d : Datum} (hatom : ∀ a, d ≠ .atom a) (hlist : ∀ items, d ≠ .list items) : HasShape d (.value d)
  | items {head : Datum} (h : NoKeyword head) (args : List Datum) : HasShape (.list (head :: args)) (.items head args)
  | define (x : String) (body : Datum) : HasShape (ofForm .define [identifier x, body]) (.define x body)
  | conditional (condition consequent : Datum) (others : List Datum) :
    HasShape (ofForm .conditional (condition :: consequent :: others)) (.conditional condition consequent others.head?)
  | block (bindings : List Datum) (body : Datum) :
    HasShape (ofForm .block [.list bindings, body]) (.block bindings body)
  | function (params : List String) (body : List Datum) :
    HasShape (ofForm .function (.list (params.map identifier) :: body)) (.function params body)
  | defineArity {parts : List Datum} (h : parts.length ≠ 2) : HasShape (ofForm .define parts) (.malformed .defineArity)
  | notDefinable {target : Datum} (h : NoIdentifier target) (body : Datum) :
    HasShape (ofForm .define [target, body]) (.malformed (.notDefinable target))
  | conditionalArity {parts : List Datum} (h : parts.length < 2) :
    HasShape (ofForm .conditional parts) (.malformed .conditionalArity)
  | blockShape {parts : List Datum} (h : ∀ bindings body, parts ≠ [.list bindings, body]) :
    HasShape (ofForm .block parts) (.malformed .blockShape)
  | functionShape {parts : List Datum} (h : ∀ params body, parts ≠ .list params :: body) :
    HasShape (ofForm .function parts) (.malformed .functionShape)
  | badParameter (params : List String) {other : Datum} (h : NoIdentifier other) (others body : List Datum) :
    HasShape (ofForm .function (.list (params.map identifier ++ other :: others) :: body))
      (.malformed (.badParameter other))

@[simp] theorem identifier?_identifier (x : String) : (identifier x).identifier? = some x := rfl

theorem noIdentifier_iff {d : Datum} : d.NoIdentifier ↔ d.identifier? = none := by
  refine ⟨?_, ?_⟩
  · intro h
    cases hx : d.identifier? with
    | none => rfl
    | some x => exact absurd (identifier?_eq_some_iff.1 hx) (h x)
  · rintro h x rfl
    simp at h

theorem noKeyword_iff {head : Datum} : head.NoKeyword ↔ head.specialForm? = none := by
  refine ⟨?_, ?_⟩
  · intro h
    cases hform : head.specialForm? with
    | none => rfl
    | some form => exact absurd (specialForm?_eq_some_iff.1 hform) (h form)
  · intro h form heq
    rw [specialForm?_eq_some_iff.2 heq] at h
    cases h

theorem shape_ofForm (form : SpecialForm) (parts : List Datum) :
    (ofForm form parts).shape = Shape.ofForm form parts := by
  have hform : (identifier form.keyword).specialForm? = some form := specialForm?_eq_some_iff.2 rfl
  simp only [ofForm, shape, hform]

theorem paramNames_map (params : List String) : Evaluator.paramNames (params.map identifier) = .ok params := by
  induction params with
  | nil => rfl
  | cons x params ih =>
    simp only [List.map_cons, Evaluator.paramNames, identifier?_identifier, ih]
    rfl

theorem paramNames_append {other : Datum} (h : NoIdentifier other) (params : List String) (others : List Datum) :
    Evaluator.paramNames (params.map identifier ++ other :: others) = .error (.badParameter other) := by
  induction params with
  | nil => simp only [List.map_nil, List.nil_append, Evaluator.paramNames, noIdentifier_iff.1 h]
  | cons x params ih =>
    simp only [List.map_cons, List.cons_append, Evaluator.paramNames, identifier?_identifier, ih]
    rfl

/-- parameters are identifiers, or they are identifiers up to the one that is not -/
theorem paramNames_cases (ps : List Datum) :
    (∃ params : List String, ps = params.map identifier) ∨
      ∃ (params : List String) (other : Datum) (others : List Datum),
        NoIdentifier other ∧ ps = params.map identifier ++ other :: others := by
  induction ps with
  | nil => exact Or.inl ⟨[], rfl⟩
  | cons p ps ih =>
    cases hp : p.identifier? with
    | none => exact Or.inr ⟨[], p, ps, noIdentifier_iff.2 hp, rfl⟩
    | some x =>
      have hx : p = identifier x := identifier?_eq_some_iff.1 hp
      rcases ih with ⟨params, hps⟩ | ⟨params, other, others, hother, hps⟩
      · exact Or.inl ⟨x :: params, by rw [hx, hps]; rfl⟩
      · exact Or.inr ⟨x :: params, other, others, hother, by rw [hx, hps]; rfl⟩

theorem hasShape_ofForm (form : SpecialForm) (parts : List Datum) :
    HasShape (ofForm form parts) (Shape.ofForm form parts) := by
  cases form with
  | define =>
    show HasShape _ (Shape.ofDefine parts)
    unfold Shape.ofDefine
    split
    · next target body =>
      split
      · next x hx =>
        rw [identifier?_eq_some_iff.1 hx]
        exact .define x body
      · next hx => exact .notDefinable (noIdentifier_iff.2 hx) body
    · next h =>
      refine .defineArity fun hlen => ?_
      obtain ⟨target, body, rfl⟩ := List.length_eq_two.1 hlen
      exact h target body rfl
  | conditional =>
    show HasShape _ (Shape.ofConditional parts)
    unfold Shape.ofConditional
    split
    · next condition consequent others => exact .conditional condition consequent others
    · next h =>
      refine .conditionalArity (Nat.lt_of_not_le fun hlen => ?_)
      match parts, hlen with
      | condition :: consequent :: others, _ => exact h condition consequent others rfl
  | block =>
    show HasShape _ (Shape.ofBlock parts)
    unfold Shape.ofBlock
    split
    · next bindings body => exact .block bindings body
    · next h => exact .blockShape h
  | function =>
    show HasShape _ (Shape.ofFunction parts)
    unfold Shape.ofFunction
    split
    · next ps body =>
      rcases paramNames_cases ps with ⟨params, rfl⟩ | ⟨params, other, others, hother, rfl⟩
      · rw [paramNames_map]
        exact .function params body
      · rw [paramNames_append hother]
        exact .badParameter params hother others body
    · next h => exact .functionShape h

/-- every datum is written as its shape says -/
theorem hasShape_shape (d : Datum) : HasShape d d.shape := by
  match d with
  | .atom (.number x) => exact .number x
  | .atom (.string s) => exact .string s
  | .atom (.identifier x) => exact .name x
  | .list [] => exact .empty
  | .list (head :: args) =>
    cases hform : head.specialForm? with
    | some form =>
      have hhead : Datum.list (head :: args) = ofForm form args := by rw [specialForm?_eq_some_iff.1 hform]; rfl
      rw [hhead, shape_ofForm]
      exact hasShape_ofForm form args
    | none =>
      simp only [shape, hform]
      exact .items (noKeyword_iff.2 hform) args
  | .absent | .number _ | .text _ | .closure .. | .builtin _ =>
    exact .value (by simp) (by simp)

/-- a datum is written in one way only -/
theorem HasShape.shape_eq {d : Datum} {s : Shape} (h : HasShape d s) : d.shape = s := by
  cases h with
  | number | string | name | empty => rfl
  | value hatom hlist =>
    cases d with
    | atom a => exact absurd rfl (hatom a)
    | list items => exact absurd rfl (hlist items)
    | _ => rfl
  | items h args => simp only [shape, noKeyword_iff.1 h]
  | define x body => rw [shape_ofForm]; rfl
  | conditional condition consequent others => rw [shape_ofForm]; rfl
  | block bindings body => rw [shape_ofForm]; rfl
  | function params body =>
    rw [shape_ofForm]
    simp only [Shape.ofForm, Shape.ofFunction, paramNames_map]
  | defineArity h =>
    rw [shape_ofForm]
    exact Shape.ofDefine.eq_2 _ fun target body heq => h (by rw [heq]; rfl)
  | notDefinable h body =>
    rw [shape_ofForm]
    simp only [Shape.ofForm, Shape.ofDefine, noIdentifier_iff.1 h]
  | conditionalArity h =>
    rw [shape_ofForm]
    refine Shape.ofConditional.eq_2 _ fun condition consequent others heq => ?_
    rw [heq] at h
    exact absurd h (by simp)
  | blockShape h =>
    rw [shape_ofForm]
    exact Shape.ofBlock.eq_2 _ h
  | functionShape h =>
    rw [shape_ofForm]
    exact Shape.ofFunction.eq_2 _ h
  | badParameter params h others body =>
    rw [shape_ofForm]
    simp only [Shape.ofForm, Shape.ofFunction, paramNames_append h]

theorem hasShape_iff {d : Datum} {s : Shape} : HasShape d s ↔ d.shape = s :=
  ⟨HasShape.shape_eq, fun h => h ▸ hasShape_shape d⟩

end Datum

end FrameLisp
