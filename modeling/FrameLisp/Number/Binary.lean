/-
What the 64 bits of a number say.

A number is a double: not a number, an infinity, or `mantissa * 2 ^ scale` with a sign. `Binary.ofFloat` reads
this off the bits, so that exact arithmetic on natural numbers can take over from there. A zero is a finite
number of mantissa 0, and there are two of them (`Number.eq_zero_iff`). `divide` is division with its rule for a
zero divisor written out.
-/

namespace FrameLisp

/-- a double, taken apart -/
inductive Binary where
  | notANumber
  | infinite (negative : Bool)
  | finite (negative : Bool) (mantissa : Nat) (scale : Int)
  deriving DecidableEq, Repr

namespace Binary

/-- the three fields of a 64-bit word: one sign bit, eleven bits of exponent, fifty-two of fraction -/
def ofBits (bits : Nat) : Binary :=
  let negative := decide (0x8000000000000000 ≤ bits)
  let exponent : Nat := bits / 0x10000000000000 % 0x800
  let fraction := bits % 0x10000000000000
  if exponent = 2047 then
    if fraction = 0 then .infinite negative else .notANumber
  else if exponent = 0 then .finite negative fraction (-1074)
  else .finite negative (0x10000000000000 + fraction) (exponent - 1075)

def ofFloat (x : Float) : Binary := ofBits x.toBits.toNat

/-- the word of a zero is 0 but for its sign bit -/
theorem ofBits_eq_zero {bits : Nat} (h : bits < 0x10000000000000000) {negative : Bool} {scale : Int} :
    ofBits bits = .finite negative 0 scale ↔ scale = -1074 ∧ bits = if negative then 0x8000000000000000 else 0 := by
  constructor
  · intro heq
    simp only [ofBits] at heq
    split at heq
    · split at heq <;> simp at heq
    · split at heq
      · simp only [Binary.finite.injEq] at heq
        obtain ⟨h1, h2, h3⟩ := heq
        refine ⟨h3.symm, ?_⟩
        cases negative with
        | true => simp only [decide_eq_true_eq] at h1; simp only [if_true]; omega
        | false => simp only [decide_eq_false_iff_not] at h1; simp only [Bool.false_eq_true, if_false]; omega
      · simp at heq
  · rintro ⟨rfl, rfl⟩
    cases negative <;> decide

end Binary

/-- a sign as text -/
def signText (negative : Bool) : String := if negative then "-" else ""

namespace Number

def infinity : Float := Float.ofBits 0x7FF0000000000000

def negativeInfinity : Float := Float.ofBits 0xFFF0000000000000

def notANumber : Float := Float.ofBits 0x7FF8000000000000

/-- whether a number is one of the two zeros -/
def isZero (x : Float) : Bool :=
  match Binary.ofFloat x with
  | .finite _ 0 _ => true
  | _ => false

/-- division, where a zero divisor gives an infinity whose sign is that of both operands together, unless the
dividend is a zero or not a number -/
def divide (a b : Float) : Float :=
  match Binary.ofFloat b with
  | .finite bNegative 0 _ =>
    match Binary.ofFloat a with
    | .notANumber => notANumber
    | .finite _ 0 _ => notANumber
    | .finite aNegative _ _ => if aNegative != bNegative then negativeInfinity else infinity
    | .infinite aNegative => if aNegative != bNegative then negativeInfinity else infinity
  | _ => a / b

end Number

end FrameLisp
