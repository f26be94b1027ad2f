import Foam.Tag

/-!
# Procedure headers

The scalar part of a `Prog`: label count, return type and format, properties as a bit set, and three
numbers that the passes before have left.
-/

namespace Foam

/-- A property of a procedure. -/
inductive ProgFlag
  | leaf | isPure | noOCalls | noFluids | inlined | coroutine | getter
  deriving DecidableEq, Repr

namespace ProgFlag

/-- Every property in the order of its bit. -/
def all : List ProgFlag := [.leaf, .isPure, .noOCalls, .noFluids, .inlined, .coroutine, .getter]

def name : ProgFlag → String
  | .leaf => "LEAF"
  | .isPure => "PURE"
  | .noOCalls => "NO_OCALLS"
  | .noFluids => "NO_FLUIDS"
  | .inlined => "INLINED"
  | .coroutine => "COROUTINE"
  | .getter => "GETTER"

def bit (f : ProgFlag) : UInt32 := 1 <<< UInt32.ofNat f.ctorIdx

end ProgFlag

/-- A set of properties. -/
structure ProgInfo where
  bits : UInt32
  deriving DecidableEq

namespace ProgInfo

def none : ProgInfo := ⟨0⟩

/-- The properties among the bits of a number. -/
def ofBits (n : UInt32) : ProgInfo := ⟨n &&& ProgFlag.all.foldl (fun m f => m ||| f.bit) 0⟩

def contains (i : ProgInfo) (f : ProgFlag) : Bool := i.bits &&& f.bit == f.bit

def flags (i : ProgInfo) : List ProgFlag := ProgFlag.all.filter i.contains

end ProgInfo

/-- The scalars of a procedure. -/
structure ProgHeader where
  labels : Int64
  result : Tag
  format : Int64
  info : ProgInfo
  size : Int64
  time : Int64
  bodyFlags : Int64

/-- A header without labels, result or properties. -/
def ProgHeader.blank : ProgHeader := ⟨0, .nil, 0, .none, 0, 0, 0⟩

end Foam
