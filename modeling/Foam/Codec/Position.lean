import Foam.Codec.Decode

/-!
# Source positions

Positions are stored apart from the code. A sequence has the spans of its statements and nothing
below them, a procedure its own span and then those of its children, any other node those of its
children. Reading goes through a tree of the same form in the same order.
-/

namespace Foam.Codec

def spanBytes (s : Span) : List UInt8 :=
  Word.toBytes 4 s.start.toNat ++ Word.toBytes 4 s.stop.toNat

def getSpan : GetM Span := do
  let start ← getUnsigned 4
  let stop ← getUnsigned 4
  return ⟨UInt32.ofNat start, UInt32.ofNat stop⟩

/-! ## Writing -/

/-- The span of the statement in a slot. -/
def statementSpan (a : Arena) (s : Slot) : Checked Span := do
  match s.child? with
  | some id => return (← a.node id).span
  | none => return .unknown

def spansFrom (a : Arena) : (depth : Nat) → NodeId → Checked (List Span)
  | 0, _ => throw .cyclic
  | depth + 1, id => do
    let n ← a.node id
    if n.tag = .seq then n.slots.mapM (statementSpan a)
    else
      let own := if n.tag = .prog then [n.span] else []
      return own ++ (← n.children.mapM (spansFrom a depth)).flatten

/-- The spans of a tree that are stored, in order. -/
def spans (a : Arena) (id : NodeId) : Checked (List Span) :=
  if id.isNull then return [] else spansFrom a a.depthBound id

/-- Writes the spans of a tree at the cursor. -/
def Buffer.putPositions (b : Buffer) (a : Arena) (id : NodeId) : Checked Buffer :=
  return b.put ((← spans a id).flatMap spanBytes)

/-! ## Reading -/

/-- Takes a span and gives it to the statement in slot `i` of a sequence. -/
def placeStatement (seq : NodeId) (i : Nat) : DecodeM Unit := do
  let s ← reading getSpan
  let stmt ← (← getThe Arena).child seq i
  if !stmt.isNull then (Arena.setSpan stmt s : ArenaM Unit)

def placeFrom : (depth : Nat) → NodeId → DecodeM Unit
  | 0, _ => (throw Misuse.cyclic : Checked _)
  | depth + 1, id => do
    let n ← (← getThe Arena).node id
    if n.tag = .seq then
      (List.range n.slots.length).forM (placeStatement id)
    else
      if n.tag = .prog then
        let s ← reading getSpan
        (Arena.setSpan id s : ArenaM Unit)
      n.children.forM (placeFrom depth)

/-- Takes the spans of a tree from the cursor on. Between two spans taken no node repeats on a path
unless the nodes run in a circle without a procedure, and there are no more spans than bytes. -/
def placePositions (id : NodeId) : DecodeM Unit := do
  if id.isNull then return ()
  let a ← getThe Arena
  let b ← getThe Buffer
  placeFrom (a.depthBound * (b.remaining + 1)) id

end Foam.Codec
