/-
Numbers as text.

A number is written with the fewest digits that read back. `Style` fixes what is left open: the words for the
values that are no reals, and up to which size a whole number is written like an integer. There are two styles:
`exact` tells any two numbers apart and always shows a point or an exponent, `displayed` is what programs print.
Both write the numbers from 0.0001 up to 10 ^ 16 by their places and the others with an exponent of at least two
digits.
-/
import FrameLisp.Number.Binary
import FrameLisp.Number.Shortest

namespace FrameLisp

namespace Decimal

/-- the text of a decimal whose digits are `ds` and whose first digit stands for `10 ^ e` -/
def layout (ds : List Char) (e : Int) : List Char :=
  if -4 ≤ e ∧ e < 0 then
    '0' :: '.' :: (List.replicate (-e - 1).toNat '0' ++ ds)
  else if 0 ≤ e ∧ e < 16 then
    let places := e.toNat + 1
    if ds.length ≤ places then ds ++ List.replicate (places - ds.length) '0' ++ ['.', '0']
    else ds.take places ++ '.' :: ds.drop places
  else
    let power := Nat.toDigits 10 e.natAbs
    ds.take 1 ++ (if ds.length ≤ 1 then [] else '.' :: ds.drop 1)
      ++ ['e', if e < 0 then '-' else '+'] ++ List.replicate (2 - power.length) '0' ++ power

/-- the text of a decimal that is not zero, without zeros at the end of its digits -/
def text (d : Decimal) : String :=
  let ds := Nat.toDigits 10 d.digits
  let kept := (ds.reverse.dropWhile (· == '0')).reverse
  String.ofList (layout kept (d.exponent + ds.length - 1))

end Decimal

namespace Number

/-- what a way of writing numbers decides -/
structure Style where
  notANumber : String
  infinity : String
  /-- whole numbers below this are written like integers, zero without a sign -/
  wholeBelow : Nat

/-- any two different numbers have different texts -/
def exact : Style := ⟨"nan", "inf", 0⟩

/-- the way programs print numbers -/
def displayed : Style := ⟨"NaN", "Infinity", 1000000000000000000000⟩

/-- the natural number `m * 2 ^ q`, when it is one -/
def wholePart? (m : Nat) (q : Int) : Option Nat :=
  if 0 ≤ q then some (m * Nat.pow 2 q.toNat)
  else if m % Nat.pow 2 (-q).toNat = 0 then some (m / Nat.pow 2 (-q).toNat)
  else none

/-- the text of `m * 2 ^ q` with a sign, as a number that may have a fraction -/
def realText (negative : Bool) (m : Nat) (q : Int) : String :=
  signText negative ++ if m = 0 then "0.0" else (Decimal.shortest m q).text

/-- the text of a number in a style -/
def Style.write (style : Style) (x : Float) : String :=
  match Binary.ofFloat x with
  | .notANumber => style.notANumber
  | .infinite negative => signText negative ++ style.infinity
  | .finite negative m q =>
    match wholePart? m q with
    | some n =>
      if n < style.wholeBelow then signText (negative && n != 0) ++ String.ofList (Nat.toDigits 10 n)
      else realText negative m q
    | none => realText negative m q

/-- the text that tells a number from every other one -/
def exactText (x : Float) : String := exact.write x

/-- the text that a program prints for a number -/
def displayText (x : Float) : String := displayed.write x

end Number

end FrameLisp
