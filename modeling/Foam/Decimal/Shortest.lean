import Foam.Decimal.Binary

/-!
# Shortest decimals

The shortest decimal that reads back as a given floating number, and of the shortest the nearest one;
of two equally near the greater. The decimals that read back fill an interval around the number. On
the grid of decimals with `n` digits only the two neighbours of the number need to be tried: if any
point of the grid lies in the interval, so does one of them.
-/

namespace Foam.Decimal

/-- `digits · 10 ^ exponent`. -/
structure Dec where
  digits : Nat
  exponent : Int
  deriving DecidableEq

/-- Numbers that read back as `m · 2 ^ q`, in quarters of the unit `2 ^ q`: from `low` to `high`,
the ends among them if `closed`. -/
structure Interval where
  low : Nat
  high : Nat
  closed : Bool

/-- Half a unit on either side, but a quarter below a number whose lower neighbour has a smaller
unit, as a power of two has. Halfway numbers are read as the even multiple. -/
def BinaryFormat.interval (f : BinaryFormat) (m : Nat) : Interval :=
  ⟨4 * m - (if m = Nat.pow 2 f.fractionBits then 1 else 2), 4 * m + 2, m % 2 == 0⟩

def Interval.contains (i : Interval) (num den : Nat) : Bool :=
  if i.closed then i.low * den ≤ num && num ≤ i.high * den
  else i.low * den < num && num < i.high * den

/-- The number of decimal digits of `n`, at least one. -/
def decimalLength (n : Nat) : Nat := if n < 10 then 1 else decimalLength (n / 10) + 1

/-- The greatest `e` with `10 ^ e ≤ num / den`, for positive `num` and `den`. -/
def floorLog10 (num den : Nat) : Int :=
  let e := (decimalLength num : Int) - decimalLength den
  if num * Nat.pow 10 (-e).toNat < den * Nat.pow 10 e.toNat then e - 1 else e

/-- Drops zeros at the end of the digits, at most `fuel` of them. -/
def Dec.trim : Nat → Dec → Dec
  | 0, d => d
  | fuel + 1, d =>
    if d.digits % 10 = 0 ∧ d.digits ≠ 0 then trim fuel ⟨d.digits / 10, d.exponent + 1⟩ else d

/-- The candidate for `n` digits: the nearer of the neighbours of `num / den` among the multiples of
`10 ^ exponent`, as far as they lie in the interval, whose unit is `unitNum / unitDen`. -/
def onGrid? (i : Interval) (num den unitNum unitDen : Nat) (exponent : Int) : Option Dec :=
  let up := Nat.pow 10 exponent.toNat
  let down := Nat.pow 10 (-exponent).toNat
  let below := num * down / (den * up)
  let rest := 2 * (num * down % (den * up))
  let inside (c : Nat) := i.contains (c * up * unitDen) (down * unitNum)
  match inside below, inside (below + 1) with
  | true, true => some ⟨if rest < den * up then below else below + 1, exponent⟩
  | true, false => some ⟨below, exponent⟩
  | false, true => some ⟨below + 1, exponent⟩
  | false, false => none

/-- Tries `digits`, `digits + 1`, … digits, `fuel` times. -/
def shortestFrom (i : Interval) (num den unitNum unitDen : Nat) (decade : Int) :
    (fuel digits : Nat) → Dec
  | 0, _ => ⟨num / den, 0⟩
  | fuel + 1, digits =>
    match onGrid? i num den unitNum unitDen (decade - (digits - 1 : Nat)) with
    | some d => d.trim (digits + 1)
    | none => shortestFrom i num den unitNum unitDen decade fuel (digits + 1)

/-- The shortest decimal for the positive number `m · 2 ^ q`. Seventeen digits tell any two numbers
of either format apart. -/
def BinaryFormat.shortest (f : BinaryFormat) (m : Nat) (q : Int) : Dec :=
  let num := m * Nat.pow 2 q.toNat
  let den := Nat.pow 2 (-q).toNat
  shortestFrom (f.interval m) num den (Nat.pow 2 (q - 2).toNat) (Nat.pow 2 (2 - q).toNat)
    (floorLog10 num den) 17 1

end Foam.Decimal
