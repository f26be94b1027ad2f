import Foam.Bignum
import Foam.Decimal.Text
import Foam.Layout
import Foam.Text.Quoted

/-!
# Slots

A node refers to other nodes by id and keeps its fields in slots. The payload of a slot says how a
field is stored, the layout of the node's tag what it means. Floating numbers are kept as their
bits, so two slots are equal exactly when nothing tells them apart.
-/

namespace Foam

/-- Names a node of an arena, or no node. -/
structure NodeId where
  raw : UInt32
  deriving DecidableEq

namespace NodeId

/-- The id of an absent child. -/
def null : NodeId := ⟨0xFFFFFFFF⟩

instance : Inhabited NodeId := ⟨null⟩

def isNull (id : NodeId) : Bool := id == null

/-- The position of the node in its arena. -/
def index (id : NodeId) : Nat := id.raw.toNat

def text (id : NodeId) : String :=
  if id.isNull then "FoamId::NONE" else "FoamId(" ++ toString id.index ++ ")"

end NodeId

/-- The payload of one slot. -/
inductive Slot
  /-- Every integral kind. -/
  | int (value : Int64)
  /-- Bits of a single float. -/
  | sflo (bits : UInt32)
  /-- Bits of a double float. -/
  | dflo (bits : UInt64)
  | str (text : String)
  | bint (value : Bignum)
  | code (child : NodeId)
  | arb (value : UInt64)
  deriving DecidableEq

namespace Slot

instance : Inhabited Slot := ⟨.int 0⟩

/-- The payload of an unfilled slot. -/
def zero : FieldKind → Slot
  | .str => .str ""
  | .sflo => .sflo 0
  | .dflo => .dflo 0
  | .bint => .bint .zero
  | .child => .code .null
  | .arb => .arb 0
  | _ => .int 0

/-- The payload is what a field of this kind is stored as. -/
def fits : Slot → FieldKind → Bool
  | .int _, k => k.isIntegral
  | .sflo _, k => k == .sflo
  | .dflo _, k => k == .dflo
  | .str _, k => k == .str
  | .bint _, k => k == .bint
  | .code _, k => k == .child
  | .arb _, k => k == .arb

theorem zero_fits (k : FieldKind) : (zero k).fits k = true := by cases k <;> rfl

def int? : Slot → Option Int64
  | .int v => some v
  | _ => none

def str? : Slot → Option String
  | .str s => some s
  | _ => none

def code? : Slot → Option NodeId
  | .code id => some id
  | _ => none

/-- The child in the slot, unless it is absent. -/
def child? : Slot → Option NodeId
  | .code id => if id.isNull then none else some id
  | _ => none

/-- A single float as text. -/
def singleText (bits : UInt32) : String := Decimal.BinaryFormat.single.text bits.toNat

/-- A double float as text. -/
def doubleText (bits : UInt64) : String := Decimal.BinaryFormat.double.text bits.toNat

/-- The form in which messages show a slot. -/
def text : Slot → String
  | .int v => "Int(" ++ toString v.toInt ++ ")"
  | .sflo b => "SFlo(" ++ singleText b ++ ")"
  | .dflo b => "DFlo(" ++ doubleText b ++ ")"
  | .str s => "Str(" ++ Text.quoted s ++ ")"
  | .bint b => "BInt(" ++ b.text ++ ")"
  | .code id => "Code(" ++ id.text ++ ")"
  | .arb v => "Arb(" ++ toString v.toNat ++ ")"

end Slot

/-- A range of bytes in a source text. -/
structure Span where
  start : UInt32
  stop : UInt32
  deriving DecidableEq

namespace Span

/-- No position is known. -/
def unknown : Span := ⟨0, 0⟩

def isUnknown (s : Span) : Bool := s == unknown

def text (s : Span) : String := toString s.start.toNat ++ ".." ++ toString s.stop.toNat

end Span

end Foam
