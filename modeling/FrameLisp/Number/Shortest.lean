/-
The shortest decimal that reads back.

The reals that round to the double `m * 2 ^ q` form an interval around it, its ends half way to the two
neighbours; the ends belong to it when `m` is even. `shortest m q` is the decimal with the fewest digits in that
interval and, of several with as few digits, the nearest to `m * 2 ^ q`; of two equally near ones it takes the
even one. All of this is exact arithmetic on natural numbers: for 1, 2, ... 17 digits it tries the two
neighbours of the value on the grid of that many digits, and the first grid with a neighbour inside the interval
wins. Whatever it finds on a grid lies in the interval (`nearestOn_inside`).
-/

namespace FrameLisp

/-- `digits * 10 ^ exponent` -/
structure Decimal where
  digits : Nat
  exponent : Int
  deriving DecidableEq, Repr

namespace Decimal

/-- how many decimal digits a natural number has -/
def length (n : Nat) : Nat := (Nat.toDigits 10 n).length

/-- the reals that round to one double, in multiples of `2 ^ unit` -/
structure Span where
  low : Nat
  value : Nat
  high : Nat
  unit : Int
  /-- whether the ends belong to it -/
  closed : Bool
  deriving Repr

/-- the interval of `m * 2 ^ q`; below a power of two the neighbour is twice as near, except at the bottom of
the range -/
def span (m : Nat) (q : Int) : Span where
  low := 4 * m - (if m = 0x10000000000000 ∧ -1074 < q then 1 else 2)
  value := 4 * m
  high := 4 * m + 2
  unit := q - 2
  closed := m % 2 == 0

namespace Span

/-- the factor that turns a multiple of `2 ^ unit` into the scale on which `10 ^ p` is `step` -/
def factor (s : Span) (p : Int) : Nat := Nat.pow 2 s.unit.toNat * Nat.pow 10 (-p).toNat

/-- `10 ^ p` on the scale of `factor` -/
def step (s : Span) (p : Int) : Nat := Nat.pow 2 (-s.unit).toNat * Nat.pow 10 p.toNat

/-- whether `k * 10 ^ p` lies in the interval -/
def inside (s : Span) (p : Int) (k : Nat) : Bool :=
  let x := k * s.step p
  if s.closed then s.low * s.factor p ≤ x && x ≤ s.high * s.factor p
  else s.low * s.factor p < x && x < s.high * s.factor p

/-- of the two neighbours of the value on the grid `10 ^ p`, the one in the interval; of two the nearer, then
the even one -/
def nearestOn (s : Span) (p : Int) : Option Nat :=
  let x := s.value * s.factor p
  let k := x / s.step p
  match s.inside p k, s.inside p (k + 1) with
  | true, false => some k
  | false, true => some (k + 1)
  | true, true =>
    let below := x - k * s.step p
    let above := (k + 1) * s.step p - x
    if below < above then some k
    else if above < below then some (k + 1)
    else some (if k % 2 = 0 then k else k + 1)
  | false, false => none

/-- the exponent of the value's leading digit: `10 ^ e` is the largest power of ten that is not above it -/
def leading (s : Span) : Int :=
  let x := s.value * s.factor 0
  let one := s.step 0
  let e : Int := length x - length one
  if one * Nat.pow 10 e.toNat ≤ x * Nat.pow 10 (-e).toNat then e else e - 1

theorem nearestOn_inside {s : Span} {p : Int} {k : Nat} (h : s.nearestOn p = some k) : s.inside p k = true := by
  simp only [nearestOn] at h
  split at h
  · cases h; assumption
  · cases h; assumption
  · split at h
    · cases h; assumption
    · split at h
      · cases h; assumption
      · split at h <;> (cases h; assumption)
  · cases h

end Span

/-- the shortest decimal that rounds to `m * 2 ^ q`; seventeen digits always suffice -/
def shortest (m : Nat) (q : Int) : Decimal :=
  let s := span m q
  let top := s.leading
  let onGrid (n : Nat) : Option Decimal := (s.nearestOn (top - n)).map fun k => ⟨k, top - n⟩
  ((List.range 17).findSome? onGrid).getD ⟨m, q⟩

end Decimal

end FrameLisp
