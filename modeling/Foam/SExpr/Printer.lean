import Foam.Arena.Basic
import Foam.Builtin
import Foam.Protocol
import Foam.Usage

/-!
# The text form: writing

A node is written as its tag and its fields in parentheses, an absent child as `()`. Fields that hold
a position in a table are written as the name there, unless the table does not reach so far. Strings
stand between double quotes with a backslash before quotes and backslashes.
-/

namespace Foam

namespace SExpr

/-- A string as the text form writes it. -/
def quoteChars (cs : List Char) : List Char :=
  '"' :: cs.flatMap (fun c => if c = '"' ∨ c = '\\' then ['\\', c] else [c]) ++ ['"']

/-- The name that a kind of field gives a number. -/
def nameOf? (kind : FieldKind) (v : Int) : Option String :=
  match kind with
  | .typeTag => (Tag.ofOrdinal? v).map Tag.name
  | .builtin => (Builtin.ofOrdinal? v).map Builtin.name
  | .protocol => (Protocol.ofOrdinal? v).map Protocol.name
  | .declUsage => (Usage.ofOrdinal? v).map Usage.name
  | _ => none

/-- The text of a slot, given that of a child. -/
def renderSlot (child : NodeId → Checked String) (kind : FieldKind) : Slot → Checked String
  | .code c => child c
  | .int v => return (nameOf? kind v.toInt).getD (toString v.toInt)
  | .sflo b => return Slot.singleText b
  | .dflo b => return Slot.doubleText b
  | .arb v => return toString v.toNat
  | .bint b => return b.text
  | .str s => return String.ofList (quoteChars s.toList)

def renderFrom (a : Arena) : (depth : Nat) → NodeId → Checked String
  | 0, _ => throw .cyclic
  | depth + 1, id => do
    if id.isNull then return "()"
    let n ← a.node id
    let fields ← n.fields.mapM fun (kind, s) => renderSlot (renderFrom a depth) kind s
    return "(" ++ " ".intercalate (n.tag.name :: fields) ++ ")"

end SExpr

/-- The text of the tree under a node, on one line. -/
def Arena.render (a : Arena) (id : NodeId) : Checked String := SExpr.renderFrom a a.depthBound id

end Foam
