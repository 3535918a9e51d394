/-
Maps of data.

Programs that differ in something that does not matter are related by a map of data. A map of code gives each
identifier another name and goes through lists item by item (`Datum.Recoding`): what a piece of code is for evaluation
goes along with such a map, as do its parts (`Recoding.shape_eq`). A map of values goes through lists item by item too
and makes functions of functions (`Datum.Transport`): builtins do with the mapped values what they do with the original
ones (`Transport.result_eq`), and they show as much of them (`Transport.showsWithin_eq`), so two calls can be followed
side by side (`Transport.call_coupledAt`).
-/
import FrameLisp.Proofs.Builtin
import FrameLisp.Proofs.Store.Change

namespace FrameLisp

/-- the fault about data that went through `φ` -/
def Fault.map (φ : Datum → Datum) : Fault → Fault
  | .notDefinable target => .notDefinable (φ target)
  | .malformedBinding binding => .malformedBinding (φ binding)
  | .badParameter param => .badParameter (φ param)
  | .notSequence b got => .notSequence b (φ got)
  | .badOperands b x y => .badOperands b (φ x) (φ y)
  | .notFunction head => .notFunction (φ head)
  | fault => fault

@[simp] theorem Fault.kind_map (φ : Datum → Datum) (fault : Fault) : (fault.map φ).kind = fault.kind := by
  cases fault <;> rfl

/-- the shape of code whose names went through `σ` and whose parts went through `φ` -/
def Shape.map (σ : String → String) (φ : Datum → Datum) : Shape → Shape
  | .value v => .value (φ v)
  | .name x => .name (σ x)
  | .items head args => .items (φ head) (args.map φ)
  | .define x body => .define (σ x) (φ body)
  | .conditional condition consequent alternative => .conditional (φ condition) (φ consequent) (alternative.map φ)
  | .block bindings body => .block (bindings.map φ) (φ body)
  | .function params body => .function (params.map σ) (body.map φ)
  | .malformed fault => .malformed (fault.map φ)

namespace Datum

/-! ## Maps of code -/

/-- `φ` renames identifiers by `σ` and nothing else that evaluation looks at; keywords stay keywords, and no other name
becomes one -/
structure Recoding (σ : String → String) (φ : Datum → Datum) : Prop where
  identifier : ∀ x, φ (identifier x) = Datum.identifier (σ x)
  numeral : ∀ x, φ (.atom (.number x)) = .atom (.number x)
  string : ∀ s, φ (.atom (.string s)) = .atom (.string s)
  number : ∀ x, φ (.number x) = .number x
  text : ∀ s, φ (.text s) = .text s
  list : ∀ items, φ (.list items) = .list (items.map φ)
  /-- what is neither atom nor list is mapped to something that is neither -/
  value : ∀ d, (∀ a, d ≠ .atom a) → (∀ items, d ≠ .list items) → (∀ a, φ d ≠ .atom a) ∧ ∀ items, φ d ≠ .list items
  keyword : ∀ x, SpecialForm.ofKeyword? (σ x) = SpecialForm.ofKeyword? x

namespace Recoding

variable {σ : String → String} {φ : Datum → Datum} (h : Recoding σ φ)

include h

theorem identifier?_eq (d : Datum) : (φ d).identifier? = d.identifier?.map σ := by
  have hvalue : ∀ d, (∀ a, d ≠ .atom a) → (∀ items, d ≠ .list items) → (φ d).identifier? = none := by
    intro d hatom hlist
    cases hd : (φ d).identifier? with
    | none => rfl
    | some x => exact absurd (identifier?_eq_some_iff.1 hd) ((h.value d hatom hlist).1 _)
  cases d with
  | atom a =>
    cases a with
    | identifier x =>
      show (φ (Datum.identifier x)).identifier? = some (σ x)
      rw [h.identifier, identifier?_identifier]
    | number x => rw [h.numeral]; rfl
    | string s => rw [h.string]; rfl
  | list items => rw [h.list]; rfl
  | _ => rw [hvalue _ (by simp) (by simp)]; rfl

theorem specialForm?_eq (head : Datum) : (φ head).specialForm? = head.specialForm? := by
  rw [specialForm?, h.identifier?_eq, specialForm?]
  cases head.identifier? with
  | none => rfl
  | some x => exact h.keyword x

theorem paramNames_eq (ps : List Datum) : Evaluator.paramNames (ps.map φ)
    = ((Evaluator.paramNames ps).map (List.map σ)).mapError (Fault.map φ) := by
  induction ps with
  | nil => rfl
  | cons p ps ih =>
    simp only [List.map_cons, Evaluator.paramNames, h.identifier?_eq, ih]
    cases p.identifier? with
    | none => rfl
    | some x => cases Evaluator.paramNames ps <;> rfl

/-- a list is mapped to a list, and nothing else is -/
theorem list_cases (d : Datum) :
    (∃ items, d = .list items ∧ φ d = .list (items.map φ)) ∨
      ((∀ items, d ≠ .list items) ∧ ∀ items, φ d ≠ .list items) := by
  cases d with
  | list items => exact Or.inl ⟨items, rfl, h.list items⟩
  | atom a =>
    refine Or.inr ⟨by simp, fun items => ?_⟩
    cases a with
    | identifier x =>
      show φ (Datum.identifier x) ≠ _
      rw [h.identifier]
      simp [Datum.identifier]
    | number x => simp [h.numeral]
    | string s => simp [h.string]
  | _ => exact Or.inr ⟨by simp, (h.value _ (by simp) (by simp)).2⟩

theorem ofForm_eq (form : SpecialForm) (parts : List Datum) :
    Shape.ofForm form (parts.map φ) = (Shape.ofForm form parts).map σ φ := by
  cases form with
  | define =>
    rcases parts with _ | ⟨target, _ | ⟨body, _ | ⟨more, others⟩⟩⟩
    · rfl
    · rfl
    · simp only [Shape.ofForm, Shape.ofDefine, List.map_cons, List.map_nil, h.identifier?_eq]
      cases target.identifier? <;> rfl
    · rfl
  | conditional =>
    rcases parts with _ | ⟨condition, _ | ⟨consequent, others⟩⟩
    · rfl
    · rfl
    · simp only [Shape.ofForm, Shape.ofConditional, List.map_cons, List.head?_map, Shape.map]
  | block =>
    rcases parts with _ | ⟨bindings, _ | ⟨body, _ | ⟨more, others⟩⟩⟩
    · rfl
    · simp [Shape.ofForm, Shape.ofBlock, Shape.map, Fault.map]
    · rcases h.list_cases bindings with ⟨items, rfl, hitems⟩ | ⟨hlist, hmapped⟩
      · simp only [Shape.ofForm, Shape.ofBlock, List.map_cons, List.map_nil, hitems, Shape.map]
      · have hshape : Shape.ofBlock [bindings, body] = .malformed .blockShape :=
          Shape.ofBlock.eq_2 _ fun items body' heq => hlist items (List.cons.inj heq).1
        have hmappedShape : Shape.ofBlock [φ bindings, φ body] = .malformed .blockShape :=
          Shape.ofBlock.eq_2 _ fun items body' heq => hmapped items (List.cons.inj heq).1
        exact hmappedShape.trans (congrArg (Shape.map σ φ) hshape).symm
    · rw [Shape.ofForm, Shape.ofBlock.eq_2 _ (by simp), Shape.ofBlock.eq_2 _ (by simp)]
      rfl
  | function =>
    cases parts with
    | nil => rfl
    | cons params body =>
      rcases h.list_cases params with ⟨items, rfl, hitems⟩ | ⟨hlist, hmapped⟩
      · simp only [Shape.ofForm, Shape.ofFunction, List.map_cons, hitems, h.paramNames_eq]
        cases Evaluator.paramNames items <;> rfl
      · have hshape : Shape.ofFunction (params :: body) = .malformed .functionShape :=
          Shape.ofFunction.eq_2 _ fun items body' heq => hlist items (List.cons.inj heq).1
        have hmappedShape : Shape.ofFunction (φ params :: body.map φ) = .malformed .functionShape :=
          Shape.ofFunction.eq_2 _ fun items body' heq => hmapped items (List.cons.inj heq).1
        exact hmappedShape.trans (congrArg (Shape.map σ φ) hshape).symm

/-- **What code is for evaluation goes along**: mapped code has the same shape, with the mapped names and parts -/
theorem shape_eq (d : Datum) : (φ d).shape = d.shape.map σ φ := by
  have hvalue : ∀ d : Datum, (∀ a, d ≠ .atom a) → (∀ items, d ≠ .list items) → d.shape = .value d :=
    fun d hatom hlist => (HasShape.value hatom hlist).shape_eq
  have hmapped : ∀ d : Datum, (∀ a, d ≠ .atom a) → (∀ items, d ≠ .list items) → (φ d).shape = d.shape.map σ φ := by
    intro d hatom hlist
    obtain ⟨hatom', hlist'⟩ := h.value d hatom hlist
    rw [hvalue d hatom hlist, hvalue _ hatom' hlist', Shape.map]
  cases d with
  | atom a =>
    cases a with
    | identifier x =>
      show (φ (Datum.identifier x)).shape = .name (σ x)
      rw [h.identifier]
      rfl
    | number x =>
      rw [h.numeral]
      exact congrArg Shape.value (h.number x).symm
    | string s =>
      rw [h.string]
      exact congrArg Shape.value (h.text s).symm
  | list items =>
    rw [h.list]
    cases items with
    | nil => exact congrArg Shape.value (h.list []).symm
    | cons head args =>
      simp only [List.map_cons, shape, h.specialForm?_eq]
      cases head.specialForm? with
      | none => rfl
      | some form => exact h.ofForm_eq form args
  | _ => exact hmapped _ (by simp) (by simp)

theorem binding?_eq (b : Datum) :
    Evaluator.binding? (φ b) = (Evaluator.binding? b).map fun binding => (σ binding.1, φ binding.2) := by
  cases hb : Evaluator.binding? b with
  | some binding =>
    rw [Evaluator.binding?_eq_some_iff.1 hb, h.list]
    show Evaluator.binding? (.list [φ (Datum.identifier binding.1), φ binding.2]) = _
    rw [h.identifier]
    rfl
  | none =>
    -- a mapped list is a binding only if the list is
    rw [Option.map_none, Option.eq_none_iff_forall_ne_some]
    intro binding hbinding
    rw [Evaluator.binding?_eq_some_iff] at hbinding
    rcases h.list_cases b with ⟨items, rfl, hitems⟩ | ⟨-, hlist⟩
    · rw [hitems, Datum.list.injEq] at hbinding
      rcases items with _ | ⟨target, _ | ⟨body, _ | ⟨more, others⟩⟩⟩
      · simp at hbinding
      · simp at hbinding
      · have htarget : (φ target).identifier? = some binding.1 := by
          rw [(List.cons.inj hbinding).1]
          rfl
        rw [h.identifier?_eq, Option.map_eq_some_iff] at htarget
        obtain ⟨x, hx, -⟩ := htarget
        rw [identifier?_eq_some_iff.1 hx] at hb
        cases hb
      · simp at hbinding
    · exact hlist _ hbinding

end Recoding

/-! ## Maps of values -/

/-- `φ` goes through lists item by item, makes functions of functions, and changes no other value -/
structure Transport (φ : Datum → Datum) : Prop where
  atom : ∀ a, φ (.atom a) = .atom a
  list : ∀ items, φ (.list items) = .list (items.map φ)
  absent : φ .absent = .absent
  number : ∀ x, φ (.number x) = .number x
  text : ∀ s, φ (.text s) = .text s
  closure : ∀ params body frame, ∃ params' body' frame', φ (.closure params body frame) = .closure params' body' frame'
  builtin : ∀ b, φ (.builtin b) = .builtin b

namespace Transport

variable {φ : Datum → Datum} (h : Transport φ)

include h

theorem isFunction_eq (d : Datum) : (φ d).isFunction = d.isFunction := by
  cases d with
  | closure params body frame =>
    obtain ⟨params', body', frame', hclosure⟩ := h.closure params body frame
    rw [hclosure]
    rfl
  | _ => simp [h.atom, h.list, h.absent, h.number, h.text, h.builtin, isFunction]

theorem holds_eq (d : Datum) : (φ d).holds = d.holds := by
  cases d with
  | closure params body frame =>
    obtain ⟨params', body', frame', hclosure⟩ := h.closure params body frame
    rw [hclosure]
    rfl
  | _ => simp [h.atom, h.list, h.absent, h.number, h.text, h.builtin, holds]

theorem nestedWithin_eq (limit : Nat) (d : Datum) : (φ d).nestedWithin limit = d.nestedWithin limit := by
  induction d using Datum.induct generalizing limit with
  | list items ih =>
    rw [h.list]
    cases limit with
    | zero => rw [nestedWithin_list_zero, nestedWithin_list_zero]
    | succ limit =>
      rw [nestedWithin_list_succ, nestedWithin_list_succ, List.all_map, Bool.eq_iff_iff, List.all_eq_true,
        List.all_eq_true]
      refine forall₂_congr fun d hd => ?_
      rw [Function.comp_apply, ih d hd]
  | closure params body frame =>
    obtain ⟨params', body', frame', hclosure⟩ := h.closure params body frame
    simp only [hclosure, nestedWithin]
  | _ => simp only [h.atom, h.absent, h.number, h.text, h.builtin]

/-! ## Builtins -/

theorem operand_eq (args : List Datum) (place : Nat) :
    Builtin.operand (args.map φ) place = φ (Builtin.operand args place) := by
  simp only [Builtin.operand, List.getD_eq_getElem?_getD, List.getElem?_map]
  cases args[place]? with
  | none => exact h.absent.symm
  | some a => rfl

theorem firstOf?_eq (d : Datum) : Builtin.firstOf? (φ d) = (Builtin.firstOf? d).map φ := by
  cases d with
  | list items => cases items <;> simp [h.list, h.absent, Builtin.firstOf?]
  | text s =>
    rw [h.text, Builtin.firstOf?]
    cases s.toList <;> simp [h.absent, h.text]
  | closure params body frame =>
    obtain ⟨params', body', frame', hclosure⟩ := h.closure params body frame
    rw [hclosure]
    rfl
  | _ => simp [h.atom, h.absent, h.number, h.builtin, Builtin.firstOf?]

theorem restOf?_eq (d : Datum) : Builtin.restOf? (φ d) = (Builtin.restOf? d).map φ := by
  cases d with
  | list items => simp [h.list, Builtin.restOf?, List.map_tail]
  | closure params body frame =>
    obtain ⟨params', body', frame', hclosure⟩ := h.closure params body frame
    rw [hclosure]
    rfl
  | _ => simp [h.atom, h.absent, h.number, h.text, h.builtin, Builtin.restOf?]

theorem sum?_eq (d e : Datum) : Builtin.sum? (φ d) (φ e) = (Builtin.sum? d e).map φ := by
  have hright : ∀ d params body frame, Builtin.sum? d (.closure params body frame) = none := by
    intro d params body frame
    cases d <;> rfl
  cases e with
  | closure params body frame =>
    obtain ⟨params', body', frame', hclosure⟩ := h.closure params body frame
    rw [hclosure, hright, hright, Option.map_none]
  | _ =>
    cases d with
    | closure params body frame =>
      obtain ⟨params', body', frame', hclosure⟩ := h.closure params body frame
      rw [hclosure]
      rfl
    | _ => simp [h.atom, h.list, h.absent, h.number, h.text, h.builtin, Builtin.sum?]

theorem numeric?_eq (op : Float → Float → Float) (d e : Datum) :
    Builtin.numeric? op (φ d) (φ e) = (Builtin.numeric? op d e).map φ := by
  have hright : ∀ d params body frame, Builtin.numeric? op d (.closure params body frame) = none := by
    intro d params body frame
    cases d <;> rfl
  cases e with
  | closure params body frame =>
    obtain ⟨params', body', frame', hclosure⟩ := h.closure params body frame
    rw [hclosure, hright, hright, Option.map_none]
  | _ =>
    cases d with
    | closure params body frame =>
      obtain ⟨params', body', frame', hclosure⟩ := h.closure params body frame
      rw [hclosure]
      rfl
    | _ => simp [h.atom, h.list, h.absent, h.number, h.text, h.builtin, Builtin.numeric?]

/-- **Builtins do the same with mapped values** -/
theorem result_eq (b : Builtin) (args : List Datum) :
    b.result (args.map φ) = ((b.result args).map φ).mapError (Fault.map φ) := by
  have helim : ∀ (r : Option Datum) (fault : Fault), (r.map φ).elim (.error (fault.map φ)) .ok
      = ((r.elim (.error fault) Except.ok).map φ).mapError (Fault.map φ) := by
    intro r fault
    cases r <;> rfl
  cases b <;> simp only [Builtin.result, h.operand_eq, h.firstOf?_eq, h.restOf?_eq, h.sum?_eq, h.numeric?_eq]
  case print => rfl
  case first | rest => exact helim _ (.notSequence _ (Builtin.operand args 0))
  all_goals exact helim _ (.badOperands _ (Builtin.operand args 0) (Builtin.operand args 1))

theorem showsWithin_eq (limit : Nat) (b : Builtin) (args : List Datum) :
    b.showsWithin limit (args.map φ) = b.showsWithin limit args := by
  have hshown : b.shown (args.map φ) = (b.shown args).map φ := by
    unfold Builtin.shown
    rw [h.result_eq]
    cases b.result args with
    | ok v => cases b <;> simp [Except.map, Except.mapError, h.operand_eq]
    | error fault => cases b <;> cases fault <;> simp [Except.map, Except.mapError, Fault.map, h.operand_eq]
  simp only [Builtin.showsWithin, hshown, List.all_map]
  exact congrArg (List.all _) (funext fun d => h.nestedWithin_eq limit d)

/-- a call with mapped arguments comes to the mapped value, or fails with the mapped fault -/
theorem call_coupledAt {R : World → World → Prop} {failed : Fault → Fault → Prop} {ok : Store → Datum → Datum → Prop}
    {w v : World} (room : Nat) (b : Builtin) (args : List Datum) (hR : R w v)
    (hprint : R (w.print (b.output args)) (v.print (b.output (args.map φ))))
    (hok : ∀ u, b.result args = .ok u → ok w.store u (φ u)) (hfailed : ∀ fault, failed fault (fault.map φ)) :
    Effect.CoupledAt R failed ok (b.call room args) (b.call room (args.map φ)) w v := by
  by_cases hshows : b.showsWithin room args = true
  · have hshows' : b.showsWithin room (args.map φ) = true := by rw [h.showsWithin_eq, hshows]
    have hw := Builtin.call_of_showsWithin hshows w
    have hv := Builtin.call_of_showsWithin hshows' v
    rw [h.result_eq] at hv
    cases hr : b.result args with
    | ok u =>
      rw [hr] at hw hv
      exact Or.inl ⟨_, _, _, _, hw, hv, hprint, hok u hr⟩
    | error fault =>
      rw [hr] at hw hv
      exact Or.inr ⟨_, _, _, _, hw, hv, hprint, hfailed fault⟩
  · have hshows' : ¬ b.showsWithin room (args.map φ) = true := by rwa [h.showsWithin_eq]
    exact Or.inr ⟨_, _, _, _, if_neg hshows, if_neg hshows', hR, hfailed .tooDeep⟩

end Transport

end Datum

/-! ## Bindings -/

namespace Bindings

/-- the bindings whose names went through `σ` and whose values went through `φ` -/
def recode (σ : String → String) (φ : Datum → Datum) (bs : Bindings) : Bindings := List.map (fun b => (σ b.1, φ b.2)) bs

variable {σ : String → String} {φ : Datum → Datum} {names : Set String}

theorem recode_cons (b : String × Datum) (bs : Bindings) : recode σ φ (b :: bs) = (σ b.1, φ b.2) :: recode σ φ bs := rfl

theorem value?_recode (hσ : Set.InjOn σ names) {bs : Bindings} (hbs : ∀ x ∈ bs.names, x ∈ names) {x : String}
    (hx : x ∈ names) : (bs.recode σ φ).value? (σ x) = (bs.value? x).map φ := by
  induction bs with
  | nil => rfl
  | cons b bs ih =>
    have hb : b.1 ∈ names := hbs b.1 (by simp [Bindings.names])
    have hrest : ∀ x ∈ Bindings.names bs, x ∈ names := fun x hx => hbs x (List.mem_cons_of_mem _ hx)
    rw [recode_cons, value?_cons, value?_cons, ih hrest]
    by_cases hname : b.1 = x
    · rw [if_pos hname, if_pos (congrArg σ hname), Option.map_some]
    · rw [if_neg hname, if_neg fun heq => hname (hσ hb hx heq)]

theorem assign_recode (hσ : Set.InjOn σ names) {bs : Bindings} (hbs : ∀ x ∈ bs.names, x ∈ names) {x : String}
    (hx : x ∈ names) (v : Datum) : (bs.assign x v).recode σ φ = (bs.recode σ φ).assign (σ x) (φ v) := by
  induction bs with
  | nil => rfl
  | cons b bs ih =>
    have hb : b.1 ∈ names := hbs b.1 (by simp [Bindings.names])
    have hrest : ∀ x ∈ Bindings.names bs, x ∈ names := fun x hx => hbs x (List.mem_cons_of_mem _ hx)
    simp only [assign, recode_cons]
    by_cases hname : b.1 = x
    · rw [if_pos hname, if_pos (congrArg σ hname), recode_cons]
    · rw [if_neg hname, if_neg fun heq => hname (hσ hb hx heq), recode_cons, ih hrest]

theorem assignAll_recode (hσ : Set.InjOn σ names) {bs : Bindings} (hbs : ∀ x ∈ bs.names, x ∈ names)
    {pairs : List (String × Datum)} (hpairs : ∀ pair ∈ pairs, pair.1 ∈ names) :
    (bs.assignAll pairs).recode σ φ = (bs.recode σ φ).assignAll (recode σ φ pairs) := by
  induction pairs generalizing bs with
  | nil => rfl
  | cons pair pairs ih =>
    rw [List.forall_mem_cons] at hpairs
    have hstep : bs.assignAll (pair :: pairs) = (bs.assign pair.1 pair.2).assignAll pairs := rfl
    have hassigned : ∀ x ∈ (bs.assign pair.1 pair.2).names, x ∈ names := by
      intro x hx
      rcases mem_names_assign.1 hx with rfl | hx
      · exact hpairs.1
      · exact hbs x hx
    rw [hstep, ih hassigned hpairs.2, assign_recode hσ hbs hpairs.1]
    rfl

theorem ofPairs_recode (hσ : Set.InjOn σ names) {pairs : List (String × Datum)}
    (hpairs : ∀ pair ∈ pairs, pair.1 ∈ names) : (ofPairs pairs).recode σ φ = ofPairs (recode σ φ pairs) :=
  assignAll_recode hσ (by simp [Bindings.names]) hpairs

theorem ofParams_recode (habsent : φ .absent = .absent) (params : List String) (args : List Datum) :
    ofParams (params.map σ) (args.map φ) = recode σ φ (ofParams params args) := by
  induction params generalizing args with
  | nil => rfl
  | cons param params ih =>
    cases args with
    | nil =>
      rw [List.map_cons, List.map_nil, ofParams, ofParams, recode_cons, habsent]
      exact congrArg _ (ih [])
    | cons arg args => exact congrArg (List.cons (σ param, φ arg)) (ih args)

end Bindings

end FrameLisp
