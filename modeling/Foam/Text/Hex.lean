/-!
# Hexadecimal digits

Numbers as hexadecimal digits, the most significant first. Digits above nine are written in lower
case and read in either.
-/

namespace Foam.Text.Hex

/-- The digit for `n`, which is below sixteen. -/
def digit (n : Nat) : Char :=
  if n < 10 then Char.ofNat (48 + n) else Char.ofNat (87 + n)

def value? (c : Char) : Option Nat :=
  let n := c.toNat
  if 48 ≤ n ∧ n ≤ 57 then some (n - 48)
  else if 97 ≤ n ∧ n ≤ 102 then some (n - 87)
  else if 65 ≤ n ∧ n ≤ 70 then some (n - 55)
  else none

def isDigit (c : Char) : Bool := (value? c).isSome

/-- Digits without leading zeros; none for zero. -/
def significant (n : Nat) : List Char :=
  if n = 0 then [] else significant (n / 16) ++ [digit (n % 16)]
termination_by n
decreasing_by omega

/-- Digits of `n`, a single `0` for zero. -/
def digits (n : Nat) : List Char :=
  if n = 0 then ['0'] else significant n

/-- Digits of `n` behind as many zeros as make up the width. -/
def padded (width n : Nat) : List Char := (digits n).leftpad width '0'

/-- The number that `cs` continues when the digits read so far make `n`. -/
def readFrom? (n : Nat) : List Char → Option Nat
  | [] => some n
  | c :: cs =>
    match value? c with
    | some d => readFrom? (16 * n + d) cs
    | none => none

/-- Reads one digit or more. -/
def read? (cs : List Char) : Option Nat :=
  if cs.isEmpty then none else readFrom? 0 cs

end Foam.Text.Hex
