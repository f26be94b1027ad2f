import Foam.Table

/-!
# Declaration usages

What a group of declarations describes: the variables of a procedure or of an environment, the
fields of a record, the values of a multiple result, a foreign signature.
-/

namespace Foam

/-- What a declaration group is for. -/
inductive Usage
  | localEnv | nonLocalEnv | params | locals | fluids | multis | unions | records
  /-- Record that ends in an array. The format of the first declaration is the number of fields
  before the array. -/
  | trailingArray
  | consts | globals | fortranSig | cSig | cType
  /-- Signature of a Java method, the return type first. -/
  | javaSig
  | javaClass
  deriving DecidableEq, Repr

namespace Usage

def all : List Usage :=
  [.localEnv, .nonLocalEnv, .params, .locals, .fluids, .multis, .unions, .records, .trailingArray,
   .consts, .globals, .fortranSig, .cSig, .cType, .javaSig, .javaClass]

def name : Usage → String
  | .localEnv => "LocalEnv"
  | .nonLocalEnv => "NonLocalEnv"
  | .params => "Params"
  | .locals => "Locals"
  | .fluids => "Fluids"
  | .multis => "Multis"
  | .unions => "Unions"
  | .records => "Records"
  | .trailingArray => "TrailingArray"
  | .consts => "Consts"
  | .globals => "Globals"
  | .fortranSig => "FortranSig"
  | .cSig => "CSig"
  | .cType => "CType"
  | .javaSig => "JavaSig"
  | .javaClass => "JavaClass"

theorem all_ordinal (u : Usage) : all[u.ctorIdx]? = some u := by cases u <;> rfl

private theorem ctorIdx_allUsage : ∀ i : Fin all.length, (all[i]).ctorIdx = i.val := by
  decide

theorem ordinal_of_all (i : Nat) (u : Usage) (h : all[i]? = some u) : u.ctorIdx = i := by
  obtain ⟨hi, rfl⟩ := List.getElem?_eq_some_iff.1 h
  exact ctorIdx_allUsage ⟨i, hi⟩

instance : Table Usage where
  rows := all
  name := name
  ordinal := Usage.ctorIdx
  rows_ordinal := all_ordinal
  ordinal_of_rows := ordinal_of_all

/-- Position in the table. -/
abbrev ordinal (u : Usage) : Nat := Table.ordinal u

abbrev ofOrdinal? (n : Int) : Option Usage := Table.ofOrdinal? n

abbrev ofName? (s : String) : Option Usage := Table.ofName? s

/-- Usages whose group lays out an environment. -/
def isEnv : Usage → Bool
  | .localEnv | .nonLocalEnv => true
  | _ => false

end Usage

end Foam
