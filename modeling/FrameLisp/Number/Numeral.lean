/-
Numerals: the texts that stand for a number in a program.

A numeral is an optional sign, then digits with at most one point among or around them and at least one digit,
then optionally `e` or `E`, an optional sign and at least one digit. Only the ten plain digits count.
`Numeral.ofChars?` takes such a text apart and refuses every other one; `Numeral.toFloat` is the nearest double,
an infinity beyond the range.
-/
import FrameLisp.Number.Binary
import FrameLisp.Number.Shortest

namespace FrameLisp

/-- `digits * 10 ^ exponent` with a sign -/
structure Numeral where
  negative : Bool
  digits : Nat
  exponent : Int
  deriving DecidableEq, Repr

namespace Numeral

/-- the natural number that digits spell -/
def natOfDigits (ds : List Char) : Nat :=
  ds.foldl (fun n d => 10 * n + (d.toNat - '0'.toNat)) 0

/-- whether the text starts with a minus sign, and what follows the sign if there is one -/
def takeSign : List Char → Bool × List Char
  | '-' :: cs => (true, cs)
  | '+' :: cs => (false, cs)
  | cs => (false, cs)

/-- the digits after a point, if a point comes next, and what follows them -/
def takeFraction : List Char → List Char × List Char
  | '.' :: cs => (cs.takeWhile Char.isDigit, cs.dropWhile Char.isDigit)
  | cs => ([], cs)

/-- the exponent that the rest of a numeral gives, 0 when nothing is left -/
def exponentOf? : List Char → Option Int
  | [] => some 0
  | c :: cs =>
    if c == 'e' || c == 'E' then
      let (negative, ds) := takeSign cs
      if !ds.isEmpty && ds.all Char.isDigit then
        some (if negative then -(natOfDigits ds : Int) else natOfDigits ds)
      else none
    else none

/-- the numeral that a text is, if it is one -/
def ofChars? (cs : List Char) : Option Numeral :=
  let (negative, body) := takeSign cs
  let whole := body.takeWhile Char.isDigit
  let (fraction, tail) := takeFraction (body.dropWhile Char.isDigit)
  if whole.isEmpty && fraction.isEmpty then none
  else (exponentOf? tail).map fun e => ⟨negative, natOfDigits (whole ++ fraction), e - fraction.length⟩

/-- the double nearest to a numeral without its sign; beyond `10 ^ 310` and below `10 ^ (-330)` nothing needs
computing -/
def magnitude (n : Numeral) : Float :=
  let top := Decimal.length n.digits + n.exponent
  if n.digits = 0 ∨ top < -330 then 0.0
  else if 310 < top then Number.infinity
  else Float.ofScientific n.digits (decide (n.exponent < 0)) n.exponent.natAbs

/-- the double nearest to a numeral -/
def toFloat (n : Numeral) : Float :=
  if n.negative then -n.magnitude else n.magnitude

end Numeral

end FrameLisp
