import Foam.Misuse

/-!
# The node arena

An arena stores nodes under ids, in a column for each part of a node and one more that flags the live
ones. The parts of a node stand at the same index of every column. Releasing a node leaves its row
vacant, and the next new node takes the row that was vacated last. What a vacant row still holds of
the node that it had is overwritten then. An id whose row is vacant, or was never made, is not live,
and every operation but the test for it refuses such an id.

Slots are checked against the layout of the tag whenever they are written, so the slots of a live
node always fit it.
-/

namespace Foam

/-- A node: an instruction, its slots, and notes that are no part of the tree. -/
structure Node where
  tag : Tag
  slots : List Slot
  /-- Where the node comes from in a source text. -/
  span : Span
  /-- Symbol that the node stands for, kept elsewhere. -/
  symbol : Option UInt32
  /-- Notes of an optimizer, kept elsewhere. -/
  optInfo : Option UInt32
  deriving DecidableEq

namespace Node

/-- A node without notes. -/
def bare (tag : Tag) (slots : List Slot) : Node := ⟨tag, slots, .unknown, none, none⟩

/-- Each slot with the kind that the layout gives it. -/
def fields (n : Node) : List (FieldKind × Slot) :=
  (n.tag.layout.kinds n.slots.length).zip n.slots

/-- The children that are present, in slot order. -/
def children (n : Node) : List NodeId := n.slots.filterMap Slot.child?

end Node

/-- Nodes under ids, part by part, and the ids that are vacant, the one to be used next first. -/
structure Arena where
  tags : Array Tag
  slotLists : Array (List Slot)
  spans : Array Span
  symbols : Array (Option UInt32)
  optInfos : Array (Option UInt32)
  /-- Whether the row has a node. -/
  live : Array Bool
  vacant : List NodeId
  deriving DecidableEq

/-- Computations that change an arena. -/
abbrev ArenaM := StateT Arena Checked

namespace Arena

def empty : Arena := ⟨#[], #[], #[], #[], #[], #[], []⟩

instance : Inhabited Arena := ⟨empty⟩

/-- The number of rows, vacant or not. -/
def capacity (a : Arena) : Nat := a.live.size

def liveCount (a : Arena) : Nat := a.live.size - a.vacant.length

/-- A number of steps that every path without a repeated node stays below. -/
def depthBound (a : Arena) : Nat := a.capacity + 1

/-- What the columns have at an index, together. -/
def row? (a : Arena) (i : Nat) : Option Node := do
  return ⟨← a.tags[i]?, ← a.slotLists[i]?, ← a.spans[i]?, ← a.symbols[i]?, ← a.optInfos[i]?⟩

def get? (a : Arena) (id : NodeId) : Option Node :=
  if a.live[id.index]? = some true then a.row? id.index else none

def contains (a : Arena) (id : NodeId) : Bool := !id.isNull && a.live[id.index]? == some true

/-! ## Reading nodes -/

def node (a : Arena) (id : NodeId) : Checked Node :=
  match a.get? id with
  | some n => .ok n
  | none => .error (.notLive id)

def tag (a : Arena) (id : NodeId) : Checked Tag := return (← a.node id).tag

def slots (a : Arena) (id : NodeId) : Checked (List Slot) := return (← a.node id).slots

def slotCount (a : Arena) (id : NodeId) : Checked Nat := return (← a.slots id).length

def children (a : Arena) (id : NodeId) : Checked (List NodeId) := return (← a.node id).children

def slot (a : Arena) (id : NodeId) (i : Nat) : Checked Slot := do
  match (← a.slots id)[i]? with
  | some s => return s
  | none => throw .outOfBounds

/-- The kind that the layout gives slot `i`, whether or not the node has that slot. -/
def kindAt (a : Arena) (id : NodeId) (i : Nat) : Checked FieldKind := do
  let t ← a.tag id
  match t.layout.kindAt? i with
  | some k => return k
  | none => throw (.noKind t.layout.text i)

def int (a : Arena) (id : NodeId) (i : Nat) : Checked Int64 := do
  match ← a.slot id i with
  | .int v => return v
  | s => throw (.notInteger (← a.tag id) i s)

def child (a : Arena) (id : NodeId) (i : Nat) : Checked NodeId := do
  match ← a.slot id i with
  | .code c => return c
  | s => throw (.notChild (← a.tag id) i s)

def str (a : Arena) (id : NodeId) (i : Nat) : Checked String := do
  match ← a.slot id i with
  | .str s => return s
  | s => throw (.notString (← a.tag id) i s)

def bignum (a : Arena) (id : NodeId) (i : Nat) : Checked Bignum := do
  match ← a.slot id i with
  | .bint b => return b
  | s => throw (.notBignum (← a.tag id) i s)

/-- Bits of a single float literal. -/
def single (a : Arena) (id : NodeId) : Checked UInt32 := do
  match ← a.slot id 0 with
  | .sflo b => return b
  | s => throw (.notSingle (← a.tag id) s)

/-- Bits of a double float literal. -/
def double (a : Arena) (id : NodeId) : Checked UInt64 := do
  match ← a.slot id 0 with
  | .dflo b => return b
  | s => throw (.notDouble (← a.tag id) s)

/-- The slots from position `i` on. -/
def slotsFrom (a : Arena) (id : NodeId) (i : Nat) : Checked (List Slot) := do
  let ss ← a.slots id
  if i ≤ ss.length then return ss.drop i else throw .outOfBounds

/-- The children in the slots from position `i` on, absent ones among them. -/
def childrenFrom (a : Arena) (id : NodeId) (i : Nat) : Checked (List NodeId) :=
  return (← a.slotsFrom id i).filterMap Slot.code?

/-- The integers in the slots from position `i` on. -/
def intsFrom (a : Arena) (id : NodeId) (i : Nat) : Checked (List Int64) :=
  return (← a.slotsFrom id i).filterMap Slot.int?

/-! ## Making and releasing nodes -/

/-- Writes all parts of a node into row `i`. -/
def write (a : Arena) (i : Nat) (n : Node) : Arena :=
  { a with
    tags := a.tags.setIfInBounds i n.tag
    slotLists := a.slotLists.setIfInBounds i n.slots
    spans := a.spans.setIfInBounds i n.span
    symbols := a.symbols.setIfInBounds i n.symbol
    optInfos := a.optInfos.setIfInBounds i n.optInfo }

/-- A row more, with a live node. -/
def append (a : Arena) (n : Node) : Arena where
  tags := a.tags.push n.tag
  slotLists := a.slotLists.push n.slots
  spans := a.spans.push n.span
  symbols := a.symbols.push n.symbol
  optInfos := a.optInfos.push n.optInfo
  live := a.live.push true
  vacant := a.vacant

/-- Row `id` is taken, and `rest` are the ids that are vacant then. -/
def occupy (a : Arena) (id : NodeId) (rest : List NodeId) : Arena :=
  { a with live := a.live.setIfInBounds id.index true, vacant := rest }

/-- Stores a node without notes under the id vacated last, else under a new one. -/
def insert (tag : Tag) (slots : List Slot) : ArenaM NodeId := fun a =>
  match a.vacant with
  | id :: rest => .ok (id, (a.write id.index (.bare tag slots)).occupy id rest)
  | [] =>
    let size := a.tags.size
    if size ≤ 0xFFFFFFFF then .ok (⟨UInt32.ofNat size⟩, a.append (.bare tag slots))
    else .error (.full size)

/-- The first of the slots, the one at position `i` foremost, that does not fit its kind. -/
def misfit? (l : Layout) (i : Nat) : List Slot → Option (Nat × FieldKind × Slot)
  | [] => none
  | s :: ss =>
    match l.kindAt? i with
    | some k => if s.fits k then misfit? l (i + 1) ss else some (i, k, s)
    | none => misfit? l (i + 1) ss

/-- A new node with the given slots. -/
def push (tag : Tag) (slots : List Slot) : ArenaM NodeId :=
  if tag.layout.accepts slots.length then
    match misfit? tag.layout 0 slots with
    | some (i, kind, slot) => throw (.slotKind tag i kind slot)
    | none => insert tag slots
  else throw (.slotCount tag slots.length)

/-- A new node with `count` unfilled slots. -/
def alloc (tag : Tag) (count : Nat) : ArenaM NodeId :=
  if tag.layout.accepts count then
    insert tag ((tag.layout.kinds count).map Slot.zero)
  else throw (.slotCount tag count)

/-- Row `id` becomes vacant. The tag and the span stay in it. -/
def vacate (a : Arena) (id : NodeId) : Arena :=
  { a with
    slotLists := a.slotLists.setIfInBounds id.index []
    symbols := a.symbols.setIfInBounds id.index none
    optInfos := a.optInfos.setIfInBounds id.index none
    live := a.live.setIfInBounds id.index false
    vacant := id :: a.vacant }

/-- Makes the row of a node vacant. Its children stay. -/
def release (id : NodeId) : ArenaM Unit := fun a => do
  let _ ← a.node id
  return ((), a.vacate id)

/-! ## Changing nodes

Each of these writes into one column. -/

def writeSlots (id : NodeId) (f : List Slot → List Slot) : ArenaM Unit := fun a => do
  let ss ← a.slots id
  return ((), { a with slotLists := a.slotLists.setIfInBounds id.index (f ss) })

/-- Writes slot `i`. -/
def setSlot (id : NodeId) (i : Nat) (s : Slot) : ArenaM Unit := do
  let a ← get
  let tag ← a.tag id
  let kind ← a.kindAt id i
  if s.fits kind then
    if i < (← a.slotCount id) then writeSlots id (·.set i s)
    else throw .outOfBounds
  else throw (.slotKind tag i kind s)

def setInt (id : NodeId) (i : Nat) (v : Int64) : ArenaM Unit := setSlot id i (.int v)

def setChild (id : NodeId) (i : Nat) (c : NodeId) : ArenaM Unit := setSlot id i (.code c)

def setSpan (id : NodeId) (s : Span) : ArenaM Unit := fun a => do
  let _ ← a.node id
  return ((), { a with spans := a.spans.setIfInBounds id.index s })

def setSymbol (id : NodeId) (s : Option UInt32) : ArenaM Unit := fun a => do
  let _ ← a.node id
  return ((), { a with symbols := a.symbols.setIfInBounds id.index s })

def setOptInfo (id : NodeId) (o : Option UInt32) : ArenaM Unit := fun a => do
  let _ ← a.node id
  return ((), { a with optInfos := a.optInfos.setIfInBounds id.index o })

end Arena

end Foam
