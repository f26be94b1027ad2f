import Foam.Codec.Word
import Foam.NameSort
import Foam.Tag
import Foam.Text.Hex

/-!
# Byte buffers

Bytes with a cursor. Writing puts bytes over those at the cursor and appends what reaches past the
end; reading takes bytes from the cursor on, or takes nothing and fails if there are too few.
-/

namespace Foam.Codec

/-- Why bytes are no tree, or not the tree that is looked for. -/
inductive DecodeError
  | unexpectedEnd (pos wanted size : Nat)
  | badTag (byte : UInt8) (pos : Nat)
  | badOrdinal (tag : Tag) (slot : Nat) (sort : NameSort) (value : Nat)
  | badArgc (tag : Tag) (count : Int)
  | badLength (pos : Nat) (length : Int)
  | badString (pos : Nat)
  | wrongTag (expected found : Tag) (pos : Nat)
  | badConstIndex (index : Int)
  | constCountMismatch (declared defined : Nat)
  deriving DecidableEq

/-- A byte with its two hexadecimal digits. -/
def byteText (b : UInt8) : String :=
  String.ofList ['0', 'x', Text.Hex.digit (b.toNat / 16), Text.Hex.digit (b.toNat % 16)]

def DecodeError.message : DecodeError → String
  | .unexpectedEnd pos wanted size => "buffer ends at " ++ toString size ++ " but " ++
      toString wanted ++ " more bytes are needed at " ++ toString pos
  | .badTag byte pos => "byte " ++ byteText byte ++ " at " ++ toString pos ++ " is not a tag"
  | .badOrdinal tag slot sort value => tag.name ++ " slot " ++ toString slot ++ " has invalid " ++
      sort.text ++ " ordinal " ++ toString value
  | .badArgc tag count => tag.name ++ " cannot have " ++ toString count ++ " slots"
  | .badLength pos length => "negative length " ++ toString length ++ " at " ++ toString pos
  | .badString pos => "string at " ++ toString pos ++ " is not UTF-8"
  | .wrongTag expected found pos => "expected " ++ expected.name ++ " at " ++ toString pos ++
      ", found " ++ found.name
  | .badConstIndex index =>
      "constant " ++ toString index ++ " is defined twice or out of range"
  | .constCountMismatch declared defined => "unit declares " ++ toString declared ++
      " constants but defines " ++ toString defined

/-- Bytes and a cursor that is nowhere past their end. -/
structure Buffer where
  bytes : Array UInt8
  pos : Nat
  pos_le : pos ≤ bytes.size

namespace Buffer

/-- The given bytes, to be read from the start. -/
def ofList (bytes : List UInt8) : Buffer := ⟨bytes.toArray, 0, Nat.zero_le _⟩

def empty : Buffer := ofList []

instance : Inhabited Buffer := ⟨empty⟩

def toList (b : Buffer) : List UInt8 := b.bytes.toList

def size (b : Buffer) : Nat := b.bytes.size

def remaining (b : Buffer) : Nat := b.size - b.pos

/-- Moves the cursor, to the end if the position is past it. -/
def seek (b : Buffer) (pos : Nat) : Buffer := ⟨b.bytes, min pos b.bytes.size, Nat.min_le_right ..⟩

def rewind (b : Buffer) : Buffer := b.seek 0

/-- Writes one byte. -/
def putByte (b : Buffer) (v : UInt8) : Buffer :=
  if h : b.pos < b.bytes.size then ⟨b.bytes.set b.pos v h, b.pos + 1, Array.size_set h ▸ h⟩
  else ⟨b.bytes.push v, b.pos + 1, by simpa using b.pos_le⟩

/-- Writes bytes one after the other. -/
def put (b : Buffer) (data : List UInt8) : Buffer := data.foldl putByte b

/-- The form in which messages show a buffer. -/
def text (b : Buffer) : String :=
  "Buffer \x7b len: " ++ toString b.size ++ ", pos: " ++ toString b.pos ++ " \x7d"

end Buffer

/-! ## Reading -/

/-- Computations that read from a buffer. A failed one leaves the cursor where it failed. -/
abbrev GetM := ExceptT DecodeError (StateM Buffer)

def position : GetM Nat := return (← get).pos

/-- Takes the next `n` bytes. -/
def take (n : Nat) : GetM (List UInt8) := do
  let b ← get
  if n ≤ b.remaining then
    set (b.seek (b.pos + n))
    return (b.bytes.extract b.pos (b.pos + n)).toList
  else throw (.unexpectedEnd b.pos n b.size)

/-- Takes an unsigned number of `width` bytes. -/
def getUnsigned (width : Nat) : GetM Nat := return Word.ofBytes (← take width)

/-- Takes a signed number of `width` bytes. -/
def getSigned (width : Nat) : GetM Int := return Word.signed width (← getUnsigned width)

end Foam.Codec
