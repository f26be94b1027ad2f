import Foam.Instr

/-!
# Wide integer literals

The binary form holds integer literals of 32 bits. A wider one is written as an expression over its
31-bit digits: the first digit, then for every further one a shift by 31 and an `or`, and a negation
if the literal is negative. Evaluating such an expression gives the literal back.
-/

namespace Foam

namespace Literal

/-- Width of a digit. -/
def digitBits : Nat := 31

/-- The literal fits the binary form as it is. -/
def isNarrow (v : Int64) : Bool := -Int.pow 2 31 ≤ v.toInt && v.toInt < Int.pow 2 31

/-- The digits of `n` in base `2 ^ 31`, the greatest first. -/
def digits (n : Nat) : List Nat :=
  if n < Nat.pow 2 digitBits then [n]
  else digits (n / Nat.pow 2 digitBits) ++ [n % Nat.pow 2 digitBits]
termination_by n
decreasing_by
  simp only [digitBits, Nat.pow_eq] at *
  omega

end Literal

namespace Arena

/-- Continues the expression `acc` by one digit. -/
def appendDigit (acc : NodeId) (digit : Nat) : ArenaM NodeId := do
  let shift ← build (.sint (Int64.ofNat Literal.digitBits))
  let shifted ← build (.bcall .sintShiftUp [acc, shift])
  let low ← build (.sint (Int64.ofNat digit))
  build (.bcall .sintOr [shifted, low])

/-- A literal that the binary form holds: the plain one if it is narrow, else the expression. -/
def buildNarrow (v : Int64) : ArenaM NodeId := do
  if Literal.isNarrow v then build (.sint v)
  else
    match Literal.digits v.toInt.natAbs with
    | [] => build (.sint v)
    | top :: rest =>
      let first ← build (.sint (Int64.ofNat top))
      let acc ← rest.foldlM appendDigit first
      if v < 0 then build (.bcall .sintNegate [acc]) else return acc

/-- `v` shifted up by `n` modulo the width. -/
def shiftUp (v : Int64) (n : Nat) : Int64 := v <<< Int64.ofNat (n % 64)

/-- Value of a literal, or of an expression made from literals by shift, `or` and negation. A shift
count must be a natural number below `2 ^ 32`. -/
def literalFrom (a : Arena) : (depth : Nat) → NodeId → Checked (Option Int64)
  | 0, _ => throw .cyclic
  | depth + 1, id => do
    if id.isNull then return none
    match ← a.tag id with
    | .sint => return some (← a.int id 0)
    | .bcall =>
      match ← a.callBuiltin? id with
      | none => return none
      | some op =>
        match op, ← a.builtinArgs id with
        | .sintShiftUp, [x, n] =>
          match ← literalFrom a depth n with
          | none => return none
          | some n =>
            if 0 ≤ n.toInt ∧ n.toInt < Int.pow 2 32 then
              return (← literalFrom a depth x).map (shiftUp · n.toInt.toNat)
            else return none
        | .sintOr, [x, y] =>
          match ← literalFrom a depth x with
          | none => return none
          | some v => return (← literalFrom a depth y).map (v ||| ·)
        | .sintNegate, [x] => return (← literalFrom a depth x).map (- ·)
        | _, _ => return none
    | _ => return none

/-- Value of a literal or of an expression that stands for a wide one. -/
def literal? (a : Arena) (id : NodeId) : Checked (Option Int64) := literalFrom a a.depthBound id

end Arena

end Foam
