import Foam.Codec.Format
import Foam.Literal

/-!
# Trees to bytes

A node is its tag byte, its slot count if it is variadic, and its slots in order. Integers of the node
are stored in its format, labels in the format of the enclosing procedure. A procedure begins with
the length of what follows, so that it can be passed over. A wide integer literal is stored as the
expression that stands for it.

Encoding is a function from trees to bytes; writing them to a buffer comes last, so a tree that has
no encoding changes nothing.
-/

namespace Foam.Codec

/-- Why a tree has no encoding. -/
inductive EncodeError
  | unencodable (tag : Tag) (slot : Nat)
  | nullChild (tag : Tag) (slot : Nat)
  | outOfRange (tag : Tag) (slot : Nat) (kind : FieldKind) (value : Int)
  deriving DecidableEq

def EncodeError.message : EncodeError → String
  | .unencodable tag slot => tag.name ++ " slot " ++ toString slot ++ " holds a host-only value"
  | .nullChild tag slot => tag.name ++ " slot " ++ toString slot ++ " is a null child"
  | .outOfRange tag slot kind value => tag.name ++ " slot " ++ toString slot ++ " value " ++
      toString value ++ " does not fit its `" ++ kind.code.toString ++ "` encoding"

/-- Computations of an encoding. -/
abbrev EncodeM := ExceptT EncodeError Checked

/-- Where a slot stands, and the formats that apply there. -/
structure Place where
  tag : Tag
  index : Nat
  format : IntFormat
  labels : IntFormat

namespace Place

/-- The bytes of a value if it is in range. -/
def ranged (p : Place) (kind : FieldKind) (v : Int) (fits : Bool) (bytes : List UInt8) :
    EncodeM (List UInt8) :=
  if fits then return bytes else throw (.outOfRange p.tag p.index kind v)

/-- A value in a format. -/
def formatted (p : Place) (kind : FieldKind) (f : IntFormat) (v : Int) : EncodeM (List UInt8) :=
  p.ranged kind v (f.holds v) (f.bytes v)

def int (p : Place) (kind : FieldKind) (v : Int) : EncodeM (List UInt8) :=
  match kind with
  | .typeTag | .protocol | .declUsage | .byte =>
    p.ranged kind v (Word.fitsUnsigned 1 v) (Word.ofInt 1 v)
  | .builtin => p.ranged kind v (Word.fitsUnsigned 2 v) (Word.ofInt 2 v)
  | .halfWord => p.ranged kind v (Word.fitsSigned 2 v) (Word.ofInt 2 v)
  | .word | .labelFormat => p.ranged kind v (Word.fitsSigned 4 v) (Word.ofInt 4 v)
  | .label => p.formatted kind p.labels v
  | .index => p.formatted kind p.format v
  | _ => throw (.unencodable p.tag p.index)

/-- One slot, given how to encode a child. The length of a procedure is not known here. -/
def slot (p : Place) (child : NodeId → EncodeM (List UInt8)) (kind : FieldKind) :
    Slot → EncodeM (List UInt8)
  | .int v => p.int kind v.toInt
  | .str s => return (← p.formatted kind p.format s.utf8ByteSize) ++ s.toUTF8.toList
  | .sflo b => return Word.toBytes 4 b.toNat
  | .dflo b => return Word.toBytes 8 b.toNat
  | .bint b => do
    let sign := Word.toBytes 1 (if b.negative then 1 else 0)
    let count ← p.formatted kind p.format b.places.length
    return sign ++ count ++ b.places.flatMap fun (n : UInt16) => Word.toBytes 2 n.toNat
  | .code c => child c
  | .arb _ => throw (.unencodable p.tag p.index)

end Place

/-- The label format after a field. -/
def labelsAfter (labels : IntFormat) : FieldKind × Slot → IntFormat
  | (.labelFormat, .int n) => .ofLabelCount n.toInt
  | _ => labels

/-- The fields from one on, `child` giving the encoding of a child under a label format, at a place.
A tree length counts its own four bytes and all that follow in the node. -/
def encodeFields (child : IntFormat → Tag → Nat → NodeId → EncodeM (List UInt8)) (p : Place) :
    List (FieldKind × Slot) → EncodeM (List UInt8)
  | [] => return []
  | (kind, s) :: rest => do
    let after := { p with index := p.index + 1, labels := labelsAfter p.labels (kind, s) }
    match kind, s with
    | .treeLength, .int _ =>
      let bytes ← encodeFields child after rest
      return Word.ofInt 4 (bytes.length + 4) ++ bytes
    | _, _ =>
      let bytes ← p.slot (child p.labels p.tag p.index) kind s
      return bytes ++ (← encodeFields child after rest)

/-- The bytes of a node apart from its children. -/
def encodeNode (child : IntFormat → Tag → Nat → NodeId → EncodeM (List UInt8)) (labels : IntFormat)
    (n : Node) : EncodeM (List UInt8) := do
  let f := IntFormat.ofNode n
  let count ← if n.tag.isVariadic then (f.put n.slots.length : Checked _) else pure []
  return fold n.tag f :: count ++ (← encodeFields child ⟨n.tag, 0, f, labels⟩ n.fields)

/-- The tree under a node, in slot `slot` of a node with tag `parent`. Wide literals are encoded by
`wide`. -/
def encodeFrom (wide : Int64 → EncodeM (List UInt8)) (a : Arena) :
    (depth : Nat) → IntFormat → Tag → Nat → NodeId → EncodeM (List UInt8)
  | 0, _, _, _, _ => (throw Misuse.cyclic : Checked _)
  | depth + 1, labels, parent, slot, id => do
    if id.isNull then throw (.nullChild parent slot)
    let n ← a.node id
    match n.tag, n.slots with
    | .sint, .int v :: _ =>
      if Literal.isNarrow v then encodeNode (encodeFrom wide a depth) labels n else wide v
    | _, _ => encodeNode (encodeFrom wide a depth) labels n

/-- The expression for a wide literal. Its own literals are narrow. -/
def encodeWide (v : Int64) : EncodeM (List UInt8) := do
  let (id, a) ← (Arena.buildNarrow v).run .empty
  encodeFrom (fun w => throw (.outOfRange .sint 0 .word w.toInt)) a a.depthBound .word .nil 0 id

/-- The bytes of the tree under a node. Labels outside any procedure are words. On a path longer than
twice the number of rows a node repeats under the same label format. -/
def encode (a : Arena) (id : NodeId) : EncodeM (List UInt8) :=
  encodeFrom encodeWide a (2 * a.depthBound) .word .nil 0 id

/-- Writes the bytes of a tree at the cursor. -/
def Buffer.putTree (b : Buffer) (a : Arena) (id : NodeId) : EncodeM Buffer :=
  return b.put (← encode a id)

/-! ## Writing to a buffer in place -/

/-- Computations that write to a buffer. -/
abbrev PutM := ExceptT EncodeError (StateT Buffer Checked)

/-- Encoding alone, among computations that also write. -/
def encoding {α : Type} (x : EncodeM α) : PutM α := fun b => return (← x.run, b)

/-- Writes the bytes of a tree at the cursor and tells their number. -/
def writeTree (a : Arena) (id : NodeId) : PutM Nat := do
  let b ← getThe Buffer
  let after ← encoding (b.putTree a id)
  set after
  return after.pos - b.pos

end Foam.Codec
