/-
What the four signs compute, and how they fail.

`Builtin.Computes` is a table with a row for every pair of kinds that one of the signs `+`, `-`, `*` and `/` works with;
numbers are doubles with the arithmetic of doubles, so a division by a zero is an infinity or not a number and never a
fault. A call gives what the table has for its first two operands, where a missing one is absent. For every other pair
it fails, and the fault names both operands, so that it takes room to show them.

Results:
- `Builtin.row?_eq_some_iff`, `Builtin.result_eq`: the result of a call of a sign is looked up in the table.
- `arithmetic_follows_table`: a call gives the result of the table and changes nothing; without a row it fails for its
  operands, or for depth when one of them is nested too deeply to be shown; a quotient with a zero divisor.
Refutation:
- `deep_operand_is_not_named`: not every failure is one for the operands.
-/
import FrameLisp.Builtin.Call
import FrameLisp.Proofs.Evaluation.Bounded
import FrameLisp.Proofs.Number.Special

namespace FrameLisp

namespace Builtin

/-! ## The table -/

/-- the builtins with a sign for a name -/
def IsSign (b : Builtin) : Prop := b = .add ∨ b = .subtract ∨ b = .multiply ∨ b = .divide

/-- what a sign gives for two operands -/
inductive Computes : Builtin → Datum → Datum → Datum → Prop
  | addNumbers (x y : Float) : Computes .add (.number x) (.number y) (.number (x + y))
  | addTexts (s t : String) : Computes .add (.text s) (.text t) (.text (s ++ t))
  | addLists (xs ys : List Datum) : Computes .add (.list xs) (.list ys) (.list (xs ++ ys))
  | subtract (x y : Float) : Computes .subtract (.number x) (.number y) (.number (x - y))
  | multiply (x y : Float) : Computes .multiply (.number x) (.number y) (.number (x * y))
  | divide (x y : Float) : Computes .divide (.number x) (.number y) (.number (x / y))

variable {b : Builtin} {args : List Datum} {x y v : Datum}

theorem sum?_eq_some_iff : sum? x y = some v ↔ Computes .add x y v := by
  constructor
  · intro h
    unfold sum? at h
    split at h
    · cases h
      exact .addNumbers _ _
    · cases h
      exact .addTexts _ _
    · cases h
      exact .addLists _ _
    · cases h
  · intro h
    cases h <;> rfl

/-- an operation on two numbers and nothing else -/
theorem numeric?_eq_some_iff {op : Float → Float → Float} :
    numeric? op x y = some v ↔ ∃ m n, x = .number m ∧ y = .number n ∧ v = .number (op m n) := by
  constructor
  · intro h
    unfold numeric? at h
    split at h
    · cases h
      exact ⟨_, _, rfl, rfl, rfl⟩
    · cases h
  · rintro ⟨m, n, rfl, rfl, rfl⟩
    rfl

/-- the row for two operands, if the table has one -/
def row? : Builtin → Datum → Datum → Option Datum
  | .add, x, y => sum? x y
  | .subtract, x, y => numeric? (· - ·) x y
  | .multiply, x, y => numeric? (· * ·) x y
  | .divide, x, y => numeric? Number.divide x y
  | _, _, _ => none

theorem row?_eq_some_iff : row? b x y = some v ↔ Computes b x y v := by
  cases b with
  | first | rest | print => exact iff_of_false nofun nofun
  | add => exact sum?_eq_some_iff
  | subtract | multiply | divide =>
    -- each of the three has one row
    simp only [row?, numeric?_eq_some_iff, Number.divide_eq]
    constructor
    · rintro ⟨m, n, rfl, rfl, rfl⟩
      constructor
    · intro h
      cases h
      exact ⟨_, _, rfl, rfl, rfl⟩

/-! ## Calls -/

/-- the result of a sign is looked up in the table -/
theorem result_eq (hb : b.IsSign) (args : List Datum) :
    b.result args = (row? b (operand args 0) (operand args 1)).elim
      (.error (.badOperands b (operand args 0) (operand args 1))) .ok := by
  rcases hb with rfl | rfl | rfl | rfl <;> rfl

theorem not_print_of_isSign (hb : b.IsSign) : b ≠ .print := by
  rcases hb with rfl | rfl | rfl | rfl <;> exact nofun

/-- a call of a sign prints nothing and leaves the world as it was -/
theorem call_eq (hb : b.IsSign) (limit : ℕ) (args : List Datum) (w : World) :
    b.call limit args w = (if b.showsWithin limit args then b.result args else .error .tooDeep, w) := by
  have hprint : w.print "" = w := by simp [World.print]
  rw [call, output_eq_empty (not_print_of_isSign hb), hprint]
  split <;> rfl

theorem Computes.isSign (h : Computes b x y v) : b.IsSign := by
  cases h with
  | addNumbers | addTexts | addLists => exact .inl rfl
  | subtract => exact .inr (.inl rfl)
  | multiply => exact .inr (.inr (.inl rfl))
  | divide => exact .inr (.inr (.inr rfl))

section Call

variable (hx : operand args 0 = x) (hy : operand args 1 = y) (limit : ℕ) (w : World)

include hx hy

/-- a row of the table is the result, and it takes no room -/
theorem call_of_computes (h : Computes b x y v) : b.call limit args w = (.ok v, w) := by
  have hresult : b.result args = .ok v := by
    rw [result_eq h.isSign, hx, hy, row?_eq_some_iff.2 h, Option.elim_some]
  have hshown : b.shown args = [] := by
    rcases h.isSign with rfl | rfl | rfl | rfl <;> simp only [shown, hresult]
  have hshows : b.showsWithin limit args = true := by rw [showsWithin, hshown, List.all_nil]
  rw [call_eq h.isSign, if_pos hshows, hresult]

/-- without a row the fault names both operands, where they can be shown -/
theorem call_of_not_computes (hb : b.IsSign) (h : ¬ ∃ v, Computes b x y v) :
    b.call limit args w
      = (.error (if x.nestedWithin limit ∧ y.nestedWithin limit then .badOperands b x y else .tooDeep), w) := by
  have hrow : row? b x y = none := Option.eq_none_iff_forall_not_mem.2 fun v hv => h ⟨v, row?_eq_some_iff.1 hv⟩
  have hresult : b.result args = .error (.badOperands b x y) := by
    rw [result_eq hb, hx, hy, hrow, Option.elim_none]
  have hshown : b.shown args = [x, y] := by
    rcases hb with rfl | rfl | rfl | rfl <;> simp only [shown, hresult]
  have hshows : b.showsWithin limit args = true ↔ x.nestedWithin limit ∧ y.nestedWithin limit := by
    simp [showsWithin, hshown]
  rw [call_eq hb, hresult]
  simp only [hshows]
  split <;> rfl

end Call

end Builtin

open Builtin

/-- **Arithmetic.** A call of one of the four signs looks at its first two operands, a missing one being absent. It
gives what the table has for them, in every world and whatever else is in the list of operands, and it changes nothing.
For a pair that is not in the table it fails with the fault that names both, a fault of the operands, unless one of them
is nested too deeply to be shown. A quotient with a zero divisor is not a number just if the dividend is a zero or not a
number, and otherwise the infinity that is negative just if one of the two sign bits is set and the other is not. -/
theorem arithmetic_follows_table {b : Builtin} (hb : b.IsSign) (limit : ℕ) {args : List Datum} {x y : Datum}
    (hx : operand args 0 = x) (hy : operand args 1 = y) (w : World) :
    (∀ v, Computes b x y v → b.call limit args w = (.ok v, w)) ∧
      ((¬ ∃ v, Computes b x y v) → ∃ fault, b.call limit args w = (.error fault, w) ∧
        (if x.nestedWithin limit ∧ y.nestedWithin limit then
          fault = .badOperands b x y ∧ fault.kind = .operand else fault = .tooDeep)) ∧
      ∀ m n : Float, b = .divide → x = .number m → y = .number n → (n = 0.0 ∨ n = -0.0) →
        ∃ r, b.call limit args w = (.ok (.number r), w) ∧
          (r = Number.notANumber ↔ m = 0.0 ∨ m = -0.0 ∨ m = Number.notANumber) ∧
          (r ≠ Number.notANumber →
            r = if Number.signed m = Number.signed n then Number.infinity else Number.negativeInfinity) := by
  refine ⟨fun v hv => call_of_computes hx hy limit w hv, fun hnone => ?_, ?_⟩
  · refine ⟨_, call_of_not_computes hx hy limit w hb hnone, ?_⟩
    split
    · exact ⟨rfl, rfl⟩
    · rfl
  · rintro m n rfl rfl rfl hzero
    have hquotient := Number.divide_zero (a := m) hzero
    rw [Number.divide_eq] at hquotient
    refine ⟨m / n, call_of_computes hx hy limit w (.divide m n), hquotient.1, fun hnumber => ?_⟩
    rw [hquotient.2 hnumber, Number.infinityOf]
    cases Number.signed m <;> cases Number.signed n <;> rfl

/-- one over the negative zero, with an operand too many -/
theorem one_over_negative_zero :
    Builtin.divide.IsSign ∧ Builtin.divide.call Limits.standard.display [.number 1.0, .number (-0.0), .absent] .empty
      = (.ok (.number Number.negativeInfinity), .empty) := by
  have hsign : Builtin.divide.IsSign := .inr (.inr (.inr rfl))
  have hx : operand [.number 1.0, .number (-0.0), .absent] 0 = .number 1.0 := rfl
  have hy : operand [.number 1.0, .number (-0.0), .absent] 1 = .number (-0.0) := rfl
  obtain ⟨-, -, hzero⟩ := arithmetic_follows_table hsign Limits.standard.display hx hy .empty
  obtain ⟨r, hcall, hindeterminate, hinfinite⟩ := hzero 1.0 (-0.0) rfl rfl rfl (.inr rfl)
  have hnumber : r ≠ Number.notANumber := mt hindeterminate.1 (by decide)
  rw [hinfinite hnumber] at hcall
  exact ⟨hsign, hcall⟩

/-- an operand that is nested more deeply than what is shown is not named -/
theorem deep_operand_is_not_named :
    ¬ ∀ (b : Builtin) (args : List Datum) (w : World), b.IsSign →
      (∃ v, b.call Limits.standard.display args w = (.ok v, w)) ∨
        ∃ fault, b.call Limits.standard.display args w = (.error fault, w) ∧ fault.kind = .operand := by
  intro h
  let limit := Limits.standard.display
  have hdeep : (Datum.nest (limit + 1)).nestedWithin limit = false := by simp [Datum.nestedWithin_nest]
  have hnone : ¬ ∃ v, Computes .add (.nest (limit + 1)) .absent v := by
    rintro ⟨v, ⟨⟩⟩
  have hx : operand [.nest (limit + 1)] 0 = .nest (limit + 1) := rfl
  have hy : operand [.nest (limit + 1)] 1 = .absent := rfl
  have hcall := call_of_not_computes hx hy limit .empty (.inl rfl) hnone
  rcases h .add [.nest (limit + 1)] .empty (.inl rfl) with ⟨v, hok⟩ | ⟨fault, herror, hkind⟩
  · cases hcall.symm.trans hok
  · rw [hdeep] at hcall
    cases hcall.symm.trans herror
    cases hkind

end FrameLisp
