import Foam.Codec.Buffer

/-!
# Data of a buffer

What is put into a buffer at once, and taken from it: a number of one of six sorts, or bytes. A number
takes as many bytes as its sort says. Bytes are stored without their count, so who takes them says how
many there are.
-/

namespace Foam.Codec

inductive Datum
  | uint8 (v : UInt8)
  | uint16 (v : UInt16)
  | int16 (v : Int16)
  | int32 (v : Int32)
  | uint32 (v : UInt32)
  | uint64 (v : UInt64)
  | bytes (data : List UInt8)
  deriving DecidableEq

/-- The sort of a datum. -/
inductive DatumSort
  | uint8 | uint16 | int16 | int32 | uint32 | uint64
  | bytes (count : Nat)

namespace Datum

def sort : Datum → DatumSort
  | uint8 _ => .uint8
  | uint16 _ => .uint16
  | int16 _ => .int16
  | int32 _ => .int32
  | uint32 _ => .uint32
  | uint64 _ => .uint64
  | bytes data => .bytes data.length

/-- The bytes that are stored. -/
def stored : Datum → List UInt8
  | uint8 v => Word.toBytes 1 v.toNat
  | uint16 v => Word.toBytes 2 v.toNat
  | int16 v => Word.ofInt 2 v.toInt
  | int32 v => Word.ofInt 4 v.toInt
  | uint32 v => Word.toBytes 4 v.toNat
  | uint64 v => Word.toBytes 8 v.toNat
  | bytes data => data

end Datum

namespace Buffer

/-- Writes a datum at the cursor. -/
def putDatum (b : Buffer) (d : Datum) : Buffer := b.put d.stored

/-- Writes data one after the other. -/
def putData (b : Buffer) (ds : List Datum) : Buffer := ds.foldl putDatum b

end Buffer

namespace DatumSort

/-- How many bytes a datum takes. -/
def width : DatumSort → Nat
  | uint8 => 1
  | uint16 | int16 => 2
  | int32 | uint32 => 4
  | uint64 => 8
  | bytes count => count

/-- Takes a datum of this sort. -/
def get : DatumSort → GetM Datum
  | uint8 => return .uint8 (UInt8.ofNat (← getUnsigned 1))
  | uint16 => return .uint16 (UInt16.ofNat (← getUnsigned 2))
  | int16 => return .int16 (Int16.ofInt (← getSigned 2))
  | int32 => return .int32 (Int32.ofInt (← getSigned 4))
  | uint32 => return .uint32 (UInt32.ofNat (← getUnsigned 4))
  | uint64 => return .uint64 (UInt64.ofNat (← getUnsigned 8))
  | bytes count => return .bytes (← take count)

end DatumSort

/-- Takes a datum of each sort, one after the other. -/
def getData (sorts : List DatumSort) : GetM (List Datum) := sorts.mapM DatumSort.get

end Foam.Codec
