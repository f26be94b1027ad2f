import Foam.Typing

/-!
# Findings of an audit

A structural fault is a node that breaks the rule of its tag where it stands. A type failure is a
node that breaks a typing rule. Both come with the constant in whose definition they were found and
with the text of the tree.
-/

namespace Foam.Audit

/-! ## Structural faults -/

inductive FaultKind
  /-- An index, level or format outside what its context declares. -/
  | badRef
  /-- A node with two parents, or twice under one. -/
  | badSharing
  /-- A cast of several values. -/
  | badCast
  /-- A declaration whose format does not suit its type. -/
  | badDecl
  /-- An ill-typed cast or call. -/
  | badType
  /-- Levels with a format that does not exist or serves twice. -/
  | badEnv
  deriving DecidableEq, Repr

namespace FaultKind

def all : List FaultKind := [badRef, badSharing, badCast, badDecl, badType, badEnv]

def name : FaultKind → String
  | badRef => "BadRef"
  | badSharing => "BadSharing"
  | badCast => "BadCast"
  | badDecl => "BadDecl"
  | badType => "BadType"
  | badEnv => "BadEnv"

def description : FaultKind → String
  | badRef => "bad reference"
  | badSharing => "bad sharing"
  | badCast => "bad cast"
  | badDecl => "bad declaration"
  | badType => "bad type"
  | badEnv => "bad environment"

end FaultKind

/-! ## Type failures -/

/-- Why a node fails its typing rule. -/
inductive TypeCause
  | missingOperand
  | untyped (e : ExprTypeError)
  | testNotBool (type : Tag)
  | withoutMFmt
  | notAssignable (tag : Tag)
  | assigns (right left : Tag)
  | recordFormats (left right : Int64)
  | elementTypes
  | returnsOne
  | returns (actual expected : Tag)
  | valueCount (given slots : Nat)
  | valueType (i : Nat) (actual : Tag) (declared : Option Tag)
  | valueFormat (i : Nat)
  | argCount (op : Builtin) (given : Nat)
  | argType (i : Nat) (op : Builtin) (actual expected : Tag)
  | notEnv (format : Int64)
  | notRecord (format : Int64)
  deriving DecidableEq

def TypeCause.message : TypeCause → String
  | missingOperand => "missing operand"
  | untyped e => e.message
  | testNotBool t => "If test has type " ++ t.name ++ ", not Bool"
  | withoutMFmt => "multi-value assignment without MFmt on the right"
  | notAssignable t => t.name ++ " is not assignable"
  | assigns right left => "assigning " ++ right.name ++ " to " ++ left.name
  | recordFormats left right => "record formats " ++ toString left.toInt ++ " and " ++
      toString right.toInt ++ " differ"
  | elementTypes => "array element types differ"
  | returnsOne => "multi-value Prog returns a single value"
  | returns actual expected =>
      "returns " ++ actual.name ++ " from a Prog returning " ++ expected.name
  | valueCount given slots =>
      toString given ++ " values for a format of " ++ toString slots ++ " slots"
  | valueType i actual declared => "value " ++ toString i ++ " has type " ++ actual.name ++
      ", slot declares " ++ (declared.map Tag.name).getD "?"
  | valueFormat i => "value " ++ toString i ++ " has a different format from its slot"
  | argCount op given => op.name ++ " takes " ++ toString op.params.length ++
      " arguments, given " ++ toString given
  | argType i op actual expected => "argument " ++ toString i ++ " of " ++ op.name ++ " is " ++
      actual.name ++ ", expected " ++ expected.name
  | notEnv format => "format " ++ toString format.toInt ++ " used as an environment"
  | notRecord format => "format " ++ toString format.toInt ++ " used as a record"

/-! ## Reports -/

/-- A structural fault. -/
structure Fault where
  kind : FaultKind
  node : NodeId
  /-- Number of the constant whose definition holds the node. -/
  constNum : Option Int64
  /-- Text of the tree. -/
  rendered : String
  deriving DecidableEq

/-- A type failure. -/
structure TypeFailure where
  node : NodeId
  constNum : Option Int64
  cause : TypeCause
  rendered : String
  deriving DecidableEq

/-- The number of a constant as messages show it. -/
def constText : Option Int64 → String
  | some n => toString n.toInt
  | none => "-"

def Fault.message (f : Fault) : String :=
  f.kind.description ++ " in const " ++ constText f.constNum ++ ": " ++ f.rendered

def TypeFailure.message (f : TypeFailure) : String :=
  "type check failed in const " ++ constText f.constNum ++ ": " ++ f.cause.message ++ "\n  " ++
    f.rendered

/-- What an audit has found, each list in the order of finding. -/
structure Report where
  faults : List Fault
  failures : List TypeFailure
  deriving DecidableEq

namespace Report

/-- Nothing was found. -/
def isOk (r : Report) : Bool := r.faults.isEmpty && r.failures.isEmpty

/-- The number of faults of a kind. -/
def count (r : Report) (kind : FaultKind) : Nat := r.faults.countP fun f => f.kind == kind

end Report

end Foam.Audit
