import Foam.Arena.Basic
import Foam.Codec.Buffer

/-!
# Integer formats

Small integers of a node (the slot count of a variadic one, indices, lengths) are all stored in one
format. For extended tags the format is folded into the tag byte, which leaves room for a few values
to be told by the byte alone. Labels are stored in a format that the procedure fixes.
-/

namespace Foam.Codec

/-- How an integer is stored. -/
inductive IntFormat
  /-- Signed, in four bytes. -/
  | word
  /-- Unsigned, in one byte. -/
  | byte
  /-- In no byte, as there is one value only. -/
  | immediate (value : Fin 3)
  deriving DecidableEq, Repr

/-- The number of values that a tag byte can tell. -/
def immediateForms : Nat := 3

def formatCount : Nat := 2 + immediateForms

/-- The distance between tag bytes of one tag. -/
def foldSpan : Nat := Table.size Tag - Tag.vectorStart.ordinal

namespace IntFormat

def all : List IntFormat := [word, byte, immediate 0, immediate 1, immediate 2]

def code : IntFormat → Nat
  | word => 0
  | byte => 1
  | immediate k => 2 + k

def ofCode? (n : Nat) : Option IntFormat := all[n]?

/-- The form in which messages show a format. -/
def text : IntFormat → String
  | word => "Word"
  | byte => "Byte"
  | immediate k => "Immediate(" ++ toString k.val ++ ")"

def holds (f : IntFormat) (v : Int) : Bool :=
  match f with
  | word => Word.fitsSigned 4 v
  | byte => Word.fitsUnsigned 1 v
  | immediate k => v == k.val

/-- The bytes of a value that the format holds. -/
def bytes (f : IntFormat) (v : Int) : List UInt8 :=
  match f with
  | word => Word.ofInt 4 v
  | byte => Word.ofInt 1 v
  | immediate _ => []

/-- The bytes of a value that the format has to hold. -/
def put (f : IntFormat) (v : Int) : Checked (List UInt8) :=
  if f.holds v then .ok (f.bytes v) else .error (.notHeld v f.text)

def get : IntFormat → GetM Int
  | word => getSigned 4
  | byte => return (← getUnsigned 1)
  | immediate k => return k.val

/-- The format of labels in a procedure with `n` of them. -/
def ofLabelCount (n : Int) : IntFormat := if byte.holds n then byte else word

end IntFormat

/-! ## Tag bytes -/

/-- The byte for a tag whose node is stored in the given format. -/
def fold (tag : Tag) (f : IntFormat) : UInt8 :=
  UInt8.ofNat (if tag.isExtended then tag.ordinal + f.code * foldSpan else tag.ordinal)

/-- The tag and the format that a byte stands for. -/
def splitByte? (b : UInt8) : Option (Tag × IntFormat) := do
  let n := b.toNat
  let start := Tag.vectorStart.ordinal
  if n < start then return (← Tag.ofOrdinal? n, .word)
  let code := (n - start) / foldSpan
  let f ← IntFormat.ofCode? code
  return (← Tag.ofOrdinal? ((n - code * foldSpan : Nat) : Int), f)

/-! ## The format of a node -/

/-- The integer of a field that is stored in the format of its node. -/
def compressible? : FieldKind × Slot → Option Int
  | (.index, .int v) => some v.toInt
  | (.str, .str s) => some s.utf8ByteSize
  | (.bint, .bint b) => some b.places.length
  | _ => none

/-- Every integer of a node that is stored in its format. -/
def compressibles (n : Node) : List Int :=
  (if n.tag.isVariadic then [(n.slots.length : Int)] else []) ++ n.fields.filterMap compressible?

/-- A single small value goes into the tag byte; bytes are used if they hold every value. -/
def IntFormat.ofValues : List Int → IntFormat
  | [] => word
  | [0] => immediate 0
  | [1] => immediate 1
  | [2] => immediate 2
  | vs => if vs.all byte.holds then byte else word

/-- The format in which a node is stored. -/
def IntFormat.ofNode (n : Node) : IntFormat :=
  if n.tag.isExtended then ofValues (compressibles n) else word

end Foam.Codec
