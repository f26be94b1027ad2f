import Foam.Table

/-!
# Calling protocols

How a procedure call or a global declaration is linked. The protocols fall into families; the three
ways of calling a Java method share one.
-/

namespace Foam

/-- A calling protocol. -/
inductive Protocol
  | foam | fortran | c | java | javaConstructor | javaMethod | lisp | init
  /-- `Include`, whose lower case is a word of Lean. -/
  | inclusion
  | other
  deriving DecidableEq, Repr

namespace Protocol

def all : List Protocol :=
  [.foam, .fortran, .c, .java, .javaConstructor, .javaMethod, .lisp, .init, .inclusion, .other]

def name : Protocol → String
  | .foam => "Foam"
  | .fortran => "Fortran"
  | .c => "C"
  | .java => "Java"
  | .javaConstructor => "JavaConstructor"
  | .javaMethod => "JavaMethod"
  | .lisp => "Lisp"
  | .init => "Init"
  | .inclusion => "Include"
  | .other => "Other"

theorem all_ordinal (p : Protocol) : all[p.ctorIdx]? = some p := by cases p <;> rfl

private theorem ctorIdx_allProtocol : ∀ i : Fin all.length, (all[i]).ctorIdx = i.val := by
  decide

theorem ordinal_of_all (i : Nat) (p : Protocol) (h : all[i]? = some p) : p.ctorIdx = i := by
  obtain ⟨hi, rfl⟩ := List.getElem?_eq_some_iff.1 h
  exact ctorIdx_allProtocol ⟨i, hi⟩

instance : Table Protocol where
  rows := all
  name := name
  ordinal := Protocol.ctorIdx
  rows_ordinal := all_ordinal
  ordinal_of_rows := ordinal_of_all

/-- Position in the table. -/
abbrev ordinal (p : Protocol) : Nat := Table.ordinal p

abbrev ofOrdinal? (n : Int) : Option Protocol := Table.ofOrdinal? n

abbrev ofName? (s : String) : Option Protocol := Table.ofName? s

/-- The protocol that stands for the family. -/
def family : Protocol → Protocol
  | .javaConstructor | .javaMethod => .java
  | p => p

def isJava (p : Protocol) : Bool := p.family == .java

end Protocol

end Foam
