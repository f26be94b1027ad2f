import Foam.Slot
import Foam.Tag

/-!
# Misuse

Some operations are defined only for nodes of the right make: live ones, with a slot at the given
position, holding a payload of the given sort. A call outside of that is a misuse, and ends the
computation that made it. Errors that are expected of data, such as a text that is not well formed,
are not misuse and have types of their own.
-/

namespace Foam

/-- Why an operation refuses a call. -/
inductive Misuse
  /-- The id names no live node of the arena. -/
  | notLive (id : NodeId)
  | slotCount (tag : Tag) (count : Nat)
  /-- The payload for slot `i` is not of the kind that the layout asks for. -/
  | slotKind (tag : Tag) (i : Nat) (kind : FieldKind) (slot : Slot)
  /-- The layout, as written, says nothing of slot `i`. -/
  | noKind (layout : String) (i : Nat)
  | notInteger (tag : Tag) (i : Nat) (slot : Slot)
  | notChild (tag : Tag) (i : Nat) (slot : Slot)
  | notString (tag : Tag) (i : Nat) (slot : Slot)
  | notBignum (tag : Tag) (i : Nat) (slot : Slot)
  | notSingle (tag : Tag) (slot : Slot)
  | notDouble (tag : Tag) (slot : Slot)
  /-- The number is to be written in an integer format that does not hold it. -/
  | notHeld (value : Int) (format : String)
  | notSeq
  | notUnit
  /-- The arena holds as many nodes as there are ids. -/
  | full (count : Nat)
  /-- The node has no slot at the position. -/
  | outOfBounds
  /-- A sum is no integer of 64 bits. -/
  | overflow
  /-- The nodes under the given one run in a circle, which the operation would follow for ever. -/
  | cyclic
  deriving DecidableEq

/-- What may be refused as misuse. -/
abbrev Checked := Except Misuse

/-- The message of a refusal. Positions outside a node, overflows and circles have none. -/
def Misuse.message? : Misuse → Option String
  | .notLive id => some ("use of freed or foreign node " ++ id.text)
  | .slotCount tag count => some (tag.name ++ " cannot have " ++ toString count ++
      " slots (shape " ++ Text.quoted tag.layout.text ++ ")")
  | .slotKind tag i kind slot => some (tag.name ++ " slot " ++ toString i ++ " expects kind '" ++
      kind.code.toString ++ "', got " ++ slot.text)
  | .noKind layout i => some ("malformed shape string " ++ Text.quoted layout ++
      ": no kind for slot " ++ toString i)
  | .notInteger tag i slot => some (misplaced tag i "an integer" slot)
  | .notChild tag i slot => some (misplaced tag i "a child" slot)
  | .notString tag i slot => some (misplaced tag i "a string" slot)
  | .notBignum tag i slot => some (misplaced tag i "a bignum" slot)
  | .notSingle tag slot => some (tag.name ++ " is not an SFlo: " ++ slot.text)
  | .notDouble tag slot => some (tag.name ++ " is not a DFlo: " ++ slot.text)
  | .notHeld value format => some (toString value ++ " does not fit " ++ format)
  | .notSeq => some "count_subtrees_of_kind expects a Seq"
  | .notUnit => some "audit root must be a Unit"
  | .full count => some ("too many FOAM nodes: " ++ toString count ++ " exceeds u32::MAX")
  | .outOfBounds => none
  | .overflow => none
  | .cyclic => none
where
  misplaced (tag : Tag) (i : Nat) (sort : String) (slot : Slot) : String :=
    tag.name ++ " slot " ++ toString i ++ " is not " ++ sort ++ ": " ++ slot.text

end Foam
