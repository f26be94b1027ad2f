import Foam.Literal

/-!
# Equality of trees

Two trees, in one arena or in two, are equal if they have the same tags and payloads in the same
places. The laxer equality up to encoding also takes an integer literal for equal to any expression
of shifts, `or` and negation that has its value, because encoding replaces wide literals by such.
-/

namespace Foam.Arena

/-- The walk over two trees at once; `lax` asks for equality up to encoding. -/
def equalFrom (lax : Bool) (a b : Arena) : (depth : Nat) → NodeId → NodeId → Checked Bool
  | 0, _, _ => throw .cyclic
  | depth + 1, x, y => do
    if x.isNull || y.isNull then return x.isNull && y.isNull
    let m ← a.node x
    let n ← b.node y
    if lax && (m.tag == .sint || n.tag == .sint) then
      let v ← a.literal? x
      let w ← b.literal? y
      return v.isSome && v == w
    if m.tag != n.tag || m.slots.length != n.slots.length then return false
    (m.slots.zip n.slots).allM fun
      | (.code c, .code d) => equalFrom lax a b depth c d
      | (s, t) => return s == t

/-- On a path longer than there are pairs of rows a pair repeats. -/
def pairBound (a b : Arena) : Nat := a.depthBound * b.depthBound

/-- The tree `x` of `a` equals the tree `y` of `b`. -/
def equal (a : Arena) (x : NodeId) (b : Arena) (y : NodeId) : Checked Bool :=
  equalFrom false a b (pairBound a b) x y

/-- The tree `x` of `a` equals the tree `y` of `b` up to the encoding of wide literals. -/
def equalUpToEncoding (a : Arena) (x : NodeId) (b : Arena) (y : NodeId) : Checked Bool :=
  equalFrom true a b (pairBound a b) x y

end Foam.Arena
