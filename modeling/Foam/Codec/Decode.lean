import Foam.Arena.Equal
import Foam.Arena.Walk
import Foam.Codec.Format
import Foam.Protocol
import Foam.Usage

/-!
# Bytes to trees

Decoding makes the nodes of a tree in an arena, children before their parent, and frees them again
when the bytes turn out to be wrong. Passing over a tree makes none and takes a procedure in one
step. All readers share the reading of a node's head and of its scalar slots.
-/

namespace Foam.Codec

/-- Computations that read bytes and make nodes. -/
abbrev DecodeM := ExceptT DecodeError (StateT Buffer ArenaM)

/-- Reading alone, among computations that also make nodes. -/
def reading {α : Type} (x : GetM α) : DecodeM α := fun b => return x.run.run b

/-! ## Heads -/

/-- What stands before the slots of a node. -/
structure Head where
  tag : Tag
  format : IntFormat
  count : Nat
  /-- Position of the tag byte. -/
  pos : Nat

/-- The slot count of a variadic node. Every slot of the tail takes a byte or more, so there cannot
be more of them than bytes. -/
def getCount (tag : Tag) (f : IntFormat) : GetM Nat := do
  let n ← f.get
  let least := tag.layout.minSlots
  if n < least then throw (.badArgc tag n)
  let b ← get
  let further := n.toNat - least
  if b.remaining < further then throw (.unexpectedEnd b.pos further b.size)
  return n.toNat

def getHead : GetM Head := do
  let pos ← position
  let byte := UInt8.ofNat (← getUnsigned 1)
  match splitByte? byte with
  | none => throw (.badTag byte pos)
  | some (tag, f) =>
    let count ← if tag.isVariadic then getCount tag f else pure tag.layout.minSlots
    return ⟨tag, f, count, pos⟩

/-- The head of a node with the given tag. -/
def expectHead (tag : Tag) : GetM Head := do
  let head ← getHead
  if head.tag = tag then return head else throw (.wrongTag tag head.tag head.pos)

/-! ## Scalars -/

/-- A length stored in a format. -/
def getLength (f : IntFormat) : GetM Nat := do
  let pos ← position
  let n ← f.get
  if n < 0 then throw (.badLength pos n) else return n.toNat

/-- A position in a table, which has to reach so far. -/
def getOrdinal (α : Type) [Table α] (sort : NameSort) (width : Nat) (tag : Tag) (slot : Nat) :
    GetM Slot := do
  let n ← getUnsigned width
  if n < Table.size α then return .int (Int64.ofNat n)
  else throw (.badOrdinal tag slot sort n)

def getString (f : IntFormat) : GetM String := do
  let length ← getLength f
  let pos ← position
  match String.fromUTF8? ⟨(← take length).toArray⟩ with
  | some s => return s
  | none => throw (.badString pos)

def getBignum (f : IntFormat) : GetM Bignum := do
  let negative := (← getUnsigned 1) != 0
  let count ← getLength f
  let b ← get
  if b.remaining < 2 * count then throw (.unexpectedEnd b.pos (2 * count) b.size)
  let places ← (List.replicate count ()).mapM fun _ => return UInt16.ofNat (← getUnsigned 2)
  return .ofPlaces negative places

/-- One slot that is no child. -/
def getScalar (head : Head) (labels : IntFormat) (i : Nat) : FieldKind → GetM Slot
  | .typeTag => getOrdinal Tag .type 1 head.tag i
  | .builtin => getOrdinal Builtin .builtin 2 head.tag i
  | .protocol => getOrdinal Protocol .protocol 1 head.tag i
  | .declUsage => getOrdinal Usage .usage 1 head.tag i
  | .byte => return .int (Int64.ofNat (← getUnsigned 1))
  | .halfWord => return .int (Int64.ofInt (← getSigned 2))
  | .word | .labelFormat => return .int (Int64.ofInt (← getSigned 4))
  | .treeLength => do
    let _ ← getUnsigned 4
    return .int 0
  | .label => return .int (Int64.ofInt (← labels.get))
  | .index => return .int (Int64.ofInt (← head.format.get))
  | .str => return .str (← getString head.format)
  | .sflo => return .sflo (UInt32.ofNat (← getUnsigned 4))
  | .dflo => return .dflo (UInt64.ofNat (← getUnsigned 8))
  | .bint => return .bint (← getBignum head.format)
  | .child | .arb => throw (.badTag (UInt8.ofNat head.tag.ordinal) head.pos)

/-- The label format after a slot of the given kind. -/
def labelsAfterSlot (labels : IntFormat) (kind : FieldKind) (s : Slot) : IntFormat :=
  match kind, s with
  | .labelFormat, .int n => .ofLabelCount n.toInt
  | _, _ => labels

/-! ## Trees -/

/-- Slot `i`, `child` decoding a child under a label format. -/
def decodeSlot (child : IntFormat → DecodeM NodeId) (head : Head) (labels : IntFormat) (i : Nat)
    (kind : FieldKind) : DecodeM Slot := do
  if kind = .child then return .code (← child labels)
  else reading (getScalar head labels i kind)

/-- The slots from number `i` on, after those in `slots`, the last of these first. A failure frees
those read so far. -/
def decodeSlots (child : IntFormat → DecodeM NodeId) (head : Head) :
    (labels : IntFormat) → (i : Nat) → (slots : List Slot) → List FieldKind → DecodeM (List Slot)
  | _, _, slots, [] => return slots.reverse
  | labels, i, slots, kind :: kinds => do
    let s ← tryCatch (decodeSlot child head labels i kind) fun e => do
      (Arena.freeSlots slots.reverse : ArenaM Unit)
      throw e
    decodeSlots child head (labelsAfterSlot labels kind s) (i + 1) (s :: slots) kinds

def decodeFrom : (fuel : Nat) → IntFormat → DecodeM NodeId
  | 0, _ => do
    let b ← getThe Buffer
    throw (.unexpectedEnd b.pos 1 b.size)
  | fuel + 1, labels => do
    let head ← reading getHead
    let slots ← decodeSlots (decodeFrom fuel) head labels 0 [] (head.tag.layout.kinds head.count)
    (Arena.push head.tag slots : ArenaM NodeId)

/-- The tree at the cursor. A node takes a byte or more, which bounds the depth. -/
def decode : DecodeM NodeId := do
  decodeFrom ((← getThe Buffer).remaining + 1) .word

/-! ## Passing over -/

/-- Passes over a procedure behind its tag, by the length that it begins with. -/
def skipProg : GetM Unit := do
  let start ← get
  let length ← getUnsigned 4
  if length < 4 ∨ start.remaining < length then
    throw (.unexpectedEnd start.pos length start.size)
  modify fun b => b.seek (start.pos + length)

/-- Passes over the slots from number `i` on. -/
def skipSlots (child : GetM Unit) (head : Head) : (i : Nat) → List FieldKind → GetM Unit
  | _, [] => return ()
  | i, kind :: kinds => do
    if kind = .child then child
    else
      let _ ← getScalar head .word i kind
    skipSlots child head (i + 1) kinds

def skipFrom : (fuel : Nat) → GetM Unit
  | 0 => do
    let b ← get
    throw (.unexpectedEnd b.pos 1 b.size)
  | fuel + 1 => do
    let head ← getHead
    if head.tag = .prog then skipProg
    else skipSlots (skipFrom fuel) head 0 (head.tag.layout.kinds head.count)

/-- Passes over the tree at the cursor. -/
def skip : GetM Unit := do skipFrom ((← get).remaining + 1)

/-! ## Procedure headers -/

/-- The slots from number `i` on, with null for every child. -/
def headerSlots (head : Head) : (labels : IntFormat) → (i : Nat) → List FieldKind → GetM (List Slot)
  | _, _, [] => return []
  | labels, i, kind :: kinds => do
    let s ← if kind = .child then pure (Slot.code .null) else getScalar head labels i kind
    return s :: (← headerSlots head (labelsAfterSlot labels kind s) (i + 1) kinds)

/-- A procedure without its children, if the tree at the cursor is one. Otherwise only the head is
read. -/
def decodeHeader? : DecodeM (Option NodeId) := do
  let head ← reading getHead
  if head.tag = .prog then
    let slots ← reading (headerSlots head .word 0 (head.tag.layout.kinds head.count))
    return some (← (Arena.push .prog slots : ArenaM NodeId))
  else return none

/-! ## Checking -/

/-- The outcome of decoding into an arena of its own. -/
def Buffer.decodeAlone (b : Buffer) : Checked (Except DecodeError NodeId × Arena) := do
  let ((r, _), a) ← (decode.run.run b).run .empty
  return (r, a)

/-- The bytes from the start hold a tree that equals the given one up to encoding. -/
def Buffer.verify (b : Buffer) (a : Arena) (id : NodeId) : Checked (Except DecodeError Bool) := do
  match ← b.rewind.decodeAlone with
  | (.ok root, scratch) => return .ok (← a.equalUpToEncoding id scratch root)
  | (.error e, _) => return .error e

end Foam.Codec
