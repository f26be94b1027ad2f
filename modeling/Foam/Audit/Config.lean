/-!
# What an audit checks

The structural rules always apply. Typing rules apply only on request, and then those of the chosen
groups.
-/

namespace Foam.Audit

/-- A group of typing rules. -/
inductive Check
  /-- Values of record type have a record format. -/
  | records
  /-- Environments have an environment format. -/
  | envs
  /-- Arguments of builtins have the types of the parameters. -/
  | bcall
  /-- Several values have the number and types that their format lists. -/
  | values
  /-- The test of a branch is a truth value. -/
  | branch
  /-- A procedure returns what it declares. -/
  | ret
  /-- The operand of a cast has a type. -/
  | cast
  deriving DecidableEq, Repr

def Check.bit (c : Check) : Nat := Nat.pow 2 c.ctorIdx

/-- Which typing rules apply. -/
structure Config where
  typeChecking : Bool
  enabled : Check → Bool

namespace Config

/-- The groups among the bits of a number. -/
def ofBits (typeChecking : Bool) (bits : Nat) : Config :=
  ⟨typeChecking, fun c => bits / c.bit % 2 == 1⟩

/-- No typing rules. -/
def standard : Config := ⟨false, fun _ => true⟩

end Config

end Foam.Audit
