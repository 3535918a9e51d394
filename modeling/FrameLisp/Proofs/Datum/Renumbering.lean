/-
Data whose frames have other numbers.

Frames are numbered in the order in which they are made, so what a program computes may differ from run to run in the
numbers of the frames that its closures captured. `d.renumber ρ` is `d` with the frame `g` of every closure replaced by
`ρ g`. Nothing but a closure has a frame, and nothing that is shown of a closure tells which. So this is a map of code
(`recoding_renumber`) and of values (`transport_renumber`): a renumbered datum has the same shape (`shape_renumber`), is
printed alike (`display_renumber`), and builtins print the same for it (`Builtin.output_renumber`). A datum whose
closures captured only frames that keep their numbers is not changed (`renumber_eq_self`).
-/
import FrameLisp.Proofs.Datum.Mapping

namespace FrameLisp

namespace Datum

mutual

/-- the datum in which the frame `g` has the number `ρ g` -/
def renumber (ρ : FrameId → FrameId) : Datum → Datum
  | .list items => .list (renumberAll ρ items)
  | .closure params body frame => .closure params (renumberAll ρ body) (ρ frame)
  | d => d

def renumberAll (ρ : FrameId → FrameId) : List Datum → List Datum
  | [] => []
  | d :: ds => renumber ρ d :: renumberAll ρ ds

end

variable (ρ : FrameId → FrameId)

theorem renumberAll_eq_map (ds : List Datum) : renumberAll ρ ds = ds.map (renumber ρ) := by
  induction ds with
  | nil => rfl
  | cons d ds ih => rw [renumberAll, ih, List.map_cons]

@[simp] theorem renumber_list (items : List Datum) :
    (Datum.list items).renumber ρ = .list (items.map (renumber ρ)) := by
  rw [renumber, renumberAll_eq_map]

@[simp] theorem renumber_closure (params : List String) (body : List Datum) (frame : FrameId) :
    (Datum.closure params body frame).renumber ρ = .closure params (body.map (renumber ρ)) (ρ frame) := by
  rw [renumber, renumberAll_eq_map]

variable {ρ}

/-- closures of frames that keep their numbers are not changed -/
theorem renumber_eq_self {d : Datum} (h : d.AllClosures fun _ _ g => ρ g = g) : d.renumber ρ = d := by
  have hmap : ∀ ds : List Datum, (∀ d ∈ ds, d.renumber ρ = d) → ds.map (renumber ρ) = ds := by
    intro ds hds
    exact (List.map_congr_left hds).trans (List.map_id ds)
  induction d using Datum.induct with
  | list items ih =>
    rw [allClosures_list] at h
    rw [renumber_list, hmap items fun d hd => ih d hd (h d hd)]
  | closure params body frame ih =>
    obtain ⟨hframe, hbody⟩ := allClosures_closure.1 h
    rw [renumber_closure, hmap body fun d hd => ih d hd (hbody d hd), hframe]
  | _ => rfl

theorem renumber_id (d : Datum) : d.renumber id = d := renumber_eq_self fun _ _ _ _ => rfl

variable (ρ)

theorem recoding_renumber : Recoding id (renumber ρ) := by
  refine ⟨fun _ => rfl, fun _ => rfl, fun _ => rfl, fun _ => rfl, fun _ => rfl, renumber_list ρ, ?_, fun _ => rfl⟩
  intro d hatom hlist
  cases d with
  | atom a => exact absurd rfl (hatom a)
  | list items => exact absurd rfl (hlist items)
  | _ => exact ⟨by simp [renumber], by simp [renumber]⟩

theorem transport_renumber : Transport (renumber ρ) :=
  ⟨fun _ => rfl, renumber_list ρ, rfl, fun _ => rfl, fun _ => rfl,
    fun params body frame => ⟨_, _, _, renumber_closure ρ params body frame⟩, fun _ => rfl⟩

/-! ## What is seen of a datum -/

theorem displayAt_renumber (nested : Bool) (d : Datum) :
    (d.renumber ρ).displayAt nested = d.displayAt nested := by
  induction d using Datum.induct generalizing nested with
  | list items ih =>
    have hitems : (items.map (renumber ρ)).map (displayAt true) = items.map (displayAt true) := by
      rw [List.map_map]
      exact List.map_congr_left fun d hd => ih d hd true
    simp only [renumber_list, displayAt, displayItems_eq_map, hitems]
  | closure params body frame => simp only [renumber_closure, displayAt]
  | _ => rfl

theorem display_renumber (d : Datum) : (d.renumber ρ).display = d.display := displayAt_renumber ρ false d

theorem inspect_renumber (d : Datum) : (d.renumber ρ).inspect = d.inspect := by
  induction d using Datum.induct with
  | list items ih =>
    have hitems : (items.map (renumber ρ)).map inspect = items.map inspect := by
      rw [List.map_map]
      exact List.map_congr_left ih
    rw [renumber_list, inspect_list, inspect_list, hitems]
  | closure params body frame => simp only [renumber_closure, inspect]
  | _ => rfl

theorem describe_renumber (d : Datum) : (d.renumber ρ).describe = d.describe := by
  cases d with
  | list items => exact inspect_renumber ρ (.list items)
  | closure params body frame => exact inspect_renumber ρ (.closure params body frame)
  | _ => rfl

end Datum

/-! ## Faults and shapes -/

/-- the fault in which the frame `g` has the number `ρ g` -/
def Fault.renumber (ρ : FrameId → FrameId) : Fault → Fault
  | .notDefinable target => .notDefinable (target.renumber ρ)
  | .malformedBinding binding => .malformedBinding (binding.renumber ρ)
  | .badParameter param => .badParameter (param.renumber ρ)
  | .notSequence b got => .notSequence b (got.renumber ρ)
  | .badOperands b x y => .badOperands b (x.renumber ρ) (y.renumber ρ)
  | .notFunction head => .notFunction (head.renumber ρ)
  | fault => fault

/-- the shape in which the frame `g` has the number `ρ g` -/
def Shape.renumber (ρ : FrameId → FrameId) : Shape → Shape
  | .value v => .value (v.renumber ρ)
  | .name x => .name x
  | .items head args => .items (head.renumber ρ) (args.map (Datum.renumber ρ))
  | .define x body => .define x (body.renumber ρ)
  | .conditional condition consequent alternative =>
    .conditional (condition.renumber ρ) (consequent.renumber ρ) (alternative.map (Datum.renumber ρ))
  | .block bindings body => .block (bindings.map (Datum.renumber ρ)) (body.renumber ρ)
  | .function params body => .function params (body.map (Datum.renumber ρ))
  | .malformed fault => .malformed (fault.renumber ρ)

section

variable (ρ : FrameId → FrameId)

theorem Fault.kind_renumber (fault : Fault) : (fault.renumber ρ).kind = fault.kind := by
  cases fault <;> rfl

/-- a user reads the same -/
theorem Fault.message_renumber (fault : Fault) : (fault.renumber ρ).message = fault.message := by
  cases fault with
  | notDefinable target =>
    exact congrArg (fun t => "Cannot define " ++ t ++ ": not an identifier") (target.describe_renumber ρ)
  | malformedBinding binding => exact congrArg ("Malformed let binding: " ++ ·) (binding.describe_renumber ρ)
  | badParameter param =>
    exact congrArg (fun t => "lambda parameter " ++ t ++ " is not an identifier") (param.describe_renumber ρ)
  | notSequence b got => exact congrArg (b.name ++ " expects a list, got " ++ ·) (got.display_renumber ρ)
  | badOperands b x y =>
    exact congrArg₂ (fun t u => "Invalid operands to " ++ b.name ++ ": " ++ t ++ ", " ++ u) (x.display_renumber ρ)
      (y.display_renumber ρ)
  | notFunction head => exact congrArg ("Cannot apply non-function " ++ ·) (head.describe_renumber ρ)
  | _ => rfl

theorem Fault.renumber_eq_map (fault : Fault) : fault.renumber ρ = fault.map (Datum.renumber ρ) := by
  cases fault <;> rfl

theorem Shape.renumber_eq_map (shape : Shape) : shape.renumber ρ = shape.map id (Datum.renumber ρ) := by
  cases shape with
  | function params body => rw [renumber, Shape.map, List.map_id]
  | malformed fault => rw [renumber, Shape.map, Fault.renumber_eq_map]
  | _ => rfl

namespace Datum

/-- a renumbered datum has the renumbered parts -/
theorem shape_renumber (d : Datum) : (d.renumber ρ).shape = d.shape.renumber ρ := by
  rw [Shape.renumber_eq_map]
  exact (recoding_renumber ρ).shape_eq d

end Datum

/-! ## Bindings and builtins -/

/-- the outcome in which the frame `g` has the number `ρ g` -/
def Datum.renumberOutcome : Except Fault Datum → Except Fault Datum
  | .ok v => .ok (v.renumber ρ)
  | .error fault => .error (fault.renumber ρ)

theorem Datum.renumberOutcome_id (outcome : Except Fault Datum) : renumberOutcome id outcome = outcome := by
  cases outcome with
  | ok v => rw [renumberOutcome, renumber_id]
  | error fault => cases fault <;> simp [renumberOutcome, Fault.renumber, renumber_id]

namespace Bindings

/-- the bindings in which the frame `g` has the number `ρ g` -/
def renumber (bs : Bindings) : Bindings := bs.map fun b => (b.1, b.2.renumber ρ)

-- no name is renamed, so all names stay apart
theorem value?_renumber (bs : Bindings) (x : String) :
    (bs.renumber ρ).value? x = (bs.value? x).map (Datum.renumber ρ) :=
  value?_recode (Set.injOn_id Set.univ) (fun _ _ => trivial) (Set.mem_univ x)

theorem binds_renumber (bs : Bindings) (x : String) : (bs.renumber ρ).binds x = bs.binds x := by
  rw [binds, value?_renumber, Option.isSome_map, binds]

theorem assign_renumber (bs : Bindings) (x : String) (v : Datum) :
    (bs.assign x v).renumber ρ = (bs.renumber ρ).assign x (v.renumber ρ) :=
  assign_recode (Set.injOn_id Set.univ) (fun _ _ => trivial) (Set.mem_univ x) v

/-- the bindings of a call with renumbered arguments -/
theorem ofParams_renumber (params : List String) (args : List Datum) :
    (ofPairs (ofParams params args)).renumber ρ = ofPairs (ofParams params (args.map (Datum.renumber ρ))) := by
  have hparams := ofParams_recode (σ := id) (φ := Datum.renumber ρ) rfl params args
  rw [List.map_id] at hparams
  rw [hparams]
  exact ofPairs_recode (Set.injOn_id Set.univ) fun _ _ => trivial

end Bindings

/-- builtins do not look at frames -/
theorem Builtin.output_renumber (b : Builtin) (args : List Datum) :
    b.output (args.map (Datum.renumber ρ)) = b.output args := by
  cases b <;> simp [output, (Datum.transport_renumber ρ).operand_eq, Datum.display_renumber]

end

end FrameLisp
