/-!
# Binary floating formats

A floating number is known by its bits: a sign, a biased exponent and a fraction. A format fixes the
widths of the last two. Decoding gives the number as a multiple of a power of two, and rounding takes
the nearest number of the format to a fraction of two integers.
-/

namespace Foam.Decimal

/-- Widths of the exponent and fraction fields. -/
structure BinaryFormat where
  exponentBits : Nat
  fractionBits : Nat
  deriving DecidableEq

/-- What bits stand for. -/
inductive Floating
  | nan
  | infinite (negative : Bool)
  /-- `m · 2 ^ q`, negated if `negative`. -/
  | finite (negative : Bool) (m : Nat) (q : Int)
  deriving DecidableEq

namespace BinaryFormat

def single : BinaryFormat := ⟨8, 23⟩

def double : BinaryFormat := ⟨11, 52⟩

/-- The exponent of two in the least positive number. -/
def minExponent (f : BinaryFormat) : Int := 2 - Int.pow 2 (f.exponentBits - 1) - f.fractionBits

/-- Infinity without a sign. -/
def infinityBits (f : BinaryFormat) : Nat :=
  (Nat.pow 2 f.exponentBits - 1) * Nat.pow 2 f.fractionBits

/-- The quiet not-a-number without a sign or payload. -/
def nanBits (f : BinaryFormat) : Nat := f.infinityBits + Nat.pow 2 (f.fractionBits - 1)

def signBit (f : BinaryFormat) : Nat := Nat.pow 2 (f.exponentBits + f.fractionBits)

def decode (f : BinaryFormat) (bits : Nat) : Floating :=
  let negative := bits / f.signBit % 2 == 1
  let exponent := bits / Nat.pow 2 f.fractionBits % Nat.pow 2 f.exponentBits
  let fraction := bits % Nat.pow 2 f.fractionBits
  if exponent = Nat.pow 2 f.exponentBits - 1 then
    if fraction = 0 then .infinite negative else .nan
  else if exponent = 0 then .finite negative fraction f.minExponent
  else .finite negative (Nat.pow 2 f.fractionBits + fraction) (f.minExponent + (exponent - 1 : Nat))

end BinaryFormat

/-- `num / den` to the nearest integer, a half to the even one. -/
def roundEven (num den : Nat) : Nat :=
  let n := num / den
  let r := 2 * (num % den)
  if r < den then n else if den < r then n + 1 else n + n % 2

/-- The greatest `e` with `2 ^ e ≤ num / den`, for positive `num` and `den`. -/
def floorLog2 (num den : Nat) : Int :=
  let e := (num.log2 : Int) - den.log2
  if num * Nat.pow 2 (-e).toNat < den * Nat.pow 2 e.toNat then e - 1 else e

/-- Bits of the format's number nearest to `num / den`, for positive `num` and `den`; infinity when
that is past the greatest. A multiple `m` of `2 ^ q` has the bits `(q - minExponent) · 2 ^ w + m`
with `w` the fraction bits, also when rounding has carried `m` to the next power of two. -/
def BinaryFormat.nearest (f : BinaryFormat) (num den : Nat) : Nat :=
  let q := max (floorLog2 num den - f.fractionBits) f.minExponent
  let m := roundEven (num * Nat.pow 2 (-q).toNat) (den * Nat.pow 2 q.toNat)
  min ((q - f.minExponent).toNat * Nat.pow 2 f.fractionBits + m) f.infinityBits

end Foam.Decimal
