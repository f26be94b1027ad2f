import Foam.Arena.Basic
import Foam.Digest

/-!
# Walks over trees

Counting, freeing, copying and hashing the tree under a node. Each walk follows every child that is
present. Counting and freeing take the last child first, copying and hashing the first.

A walk goes no deeper than there are rows unless the nodes run in a circle, which bounds the
recursion.
-/

namespace Foam.Arena

/-! ## Counting -/

def countFrom (a : Arena) : (depth : Nat) → NodeId → Checked Nat
  | 0, _ => throw .cyclic
  | depth + 1, id => do
    (← a.children id).foldrM (fun c n => return n + (← countFrom a depth c)) 1

/-- The number of nodes of a tree, each counted as often as it is reached. -/
def nodeCount (a : Arena) (id : NodeId) : Checked Nat :=
  if id.isNull then return 0 else countFrom a a.depthBound id

/-! ## Freeing -/

def freeFrom : (depth : Nat) → NodeId → ArenaM Unit
  | 0, _ => throw .cyclic
  | depth + 1, id => do
    let children ← (← get).children id
    release id
    children.reverse.forM (freeFrom depth)

/-- Releases the nodes of a tree, a node before its children. A node that is reached again is no
longer live then, so the walk ends on every graph. -/
def free (id : NodeId) : ArenaM Unit := do
  if id.isNull then return () else freeFrom (← get).depthBound id

/-- Releases the trees in the slots of a node that was never made. -/
def freeSlots (slots : List Slot) : ArenaM Unit :=
  slots.forM fun
    | .code c => free c
    | _ => return ()

/-! ## Copying -/

/-- A new node with the given slots and the notes of the node `id`. Optimizer info on a variable
reference is about one occurrence and stays behind. -/
def copyHeader (id : NodeId) (tag : Tag) (slots : List Slot) : ArenaM NodeId := do
  let source ← (← get).node id
  let new ← push tag slots
  setSpan new source.span
  setSymbol new source.symbol
  if !tag.isVarRef then setOptInfo new source.optInfo
  return new

/-- A new node with the same slots, which shares the children. -/
def copyNode (id : NodeId) : ArenaM NodeId := do
  let source ← (← get).node id
  copyHeader id source.tag source.slots

def copyFrom : (depth : Nat) → NodeId → ArenaM NodeId
  | 0, _ => throw .cyclic
  | depth + 1, id => do
    if id.isNull then return .null
    let source ← (← get).node id
    let slots ← source.slots.mapM fun
      | .code c => return .code (← copyFrom depth c)
      | s => return s
    copyHeader id source.tag slots

/-- The number of slots of all nodes. -/
def slotTotal (a : Arena) : Nat := a.slotLists.foldl (fun n slots => n + slots.length) 0

/-- A deep copy within the arena. A child that is not live when the walk begins may name one of the
new nodes when it is reached; each slot can lead to new nodes so at most once on a path, which bounds
the depth. -/
def copy (id : NodeId) : ArenaM NodeId := do
  let a ← get
  copyFrom (a.depthBound * (a.slotTotal + 2)) id

def copyIntoFrom (source : Arena) : (depth : Nat) → NodeId → ArenaM NodeId
  | 0, _ => throw .cyclic
  | depth + 1, id => do
    if id.isNull then return .null
    let n ← source.node id
    let slots ← n.slots.mapM fun
      | .code c => return .code (← copyIntoFrom source depth c)
      | s => return s
    let new ← push n.tag slots
    setSpan new n.span
    setSymbol new n.symbol
    return new

/-- A deep copy into another arena, with spans and symbols. -/
def copyInto (source : Arena) (id : NodeId) : ArenaM NodeId :=
  copyIntoFrom source source.depthBound id

/-! ## Hashing -/

def hashMask : UInt32 := 0x3FFFFFFF

def hashStep : UInt32 := 200041

/-- Takes the hash of one slot into the hash of its node. -/
def hashAdd (sum part : UInt32) : UInt32 :=
  ((sum ^^^ sum <<< 8) + part + hashStep) &&& hashMask

/-- Hash of a slot, given that of a child. -/
def hashSlot (h : Hasher) (child : NodeId → Checked UInt32) : Slot → Checked UInt32
  | .code c => child c
  | .int v => return v.toUInt64.toUInt32
  | .sflo b => return b
  | .dflo b => return Digest.fold b
  | .arb v => return Digest.fold v
  | .str s => return Digest.fold (h.ofString s)
  | .bint b => return Digest.fold (h.ofBignum b)

def hashFrom (h : Hasher) (a : Arena) : (depth : Nat) → NodeId → Checked UInt32
  | 0, _ => throw .cyclic
  | depth + 1, id => do
    if id.isNull then return 0
    let n ← a.node id
    n.slots.foldlM (fun sum s => return hashAdd sum (← hashSlot h (hashFrom h a depth) s))
      (UInt32.ofNat n.tag.ordinal)

/-- Hash of a tree by tags and payloads, in 30 bits. An absent child hashes as zero. -/
def hash (h : Hasher) (a : Arena) (id : NodeId) : Checked UInt32 := hashFrom h a a.depthBound id

end Foam.Arena
