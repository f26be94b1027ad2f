import Foam.Codec.Decode

/-!
# Parts of an encoded unit

A unit is a format table and the definitions. The readers here go through as much of the bytes as one
question needs, from the start of the buffer: the format table, the number of constants, where the
value of each constant stands, or one value.
-/

namespace Foam.Codec

/-- The format table alone. -/
def decodeFormats : DecodeM NodeId := do
  reading do
    modify Buffer.rewind
    let _ ← expectHead .unit
  decode

/-- The number of constants that the unit declares, which is the size of its second format. -/
def constCount : GetM Nat := do
  modify Buffer.rewind
  let _ ← expectHead .unit
  let formats ← expectHead .dfmt
  if formats.count ≤ 1 then throw (.badArgc .dfmt formats.count)
  skip
  let consts ← expectHead .ddecl
  return consts.count - consts.tag.layout.minSlots

/-- Enters where the value of constant `index` stands. Every constant is defined once. -/
def enterOffset (offsets : List (Option Nat)) (index : Int) (pos : Nat) :
    GetM (List (Option Nat)) :=
  if 0 ≤ index ∧ offsets[index.toNat]? = some none then
    return offsets.set index.toNat (some pos)
  else throw (.badConstIndex index)

/-- Goes through `count` definitions and enters the constants among them. A definition has a constant
or a global on its left. -/
def scanDefs : (count : Nat) → List (Option Nat) → GetM (List (Option Nat))
  | 0, offsets => return offsets
  | count + 1, offsets => do
    let _ ← expectHead .defn
    let left ← getHead
    let index ← left.format.get
    let offsets ← match left.tag with
      | .const => enterOffset offsets index (← position)
      | .glo => pure offsets
      | found => throw (.wrongTag .const found left.pos)
    skip
    scanDefs count offsets

/-- Where the value of each constant stands, by number. Every declared constant is defined. -/
def constOffsets : GetM (List Nat) := do
  let count ← constCount
  modify Buffer.rewind
  let _ ← expectHead .unit
  skip
  let defs ← expectHead .ddef
  let offsets ← scanDefs defs.count (List.replicate count none)
  let defined := offsets.filterMap id
  if defined.length = count then return defined
  else throw (.constCountMismatch count defined.length)

/-- The tree at a position. -/
def decodeAt (pos : Nat) : DecodeM NodeId := do
  modifyThe Buffer fun b => b.seek pos
  decode

/-- The procedure header at a position, if there is a procedure. -/
def decodeHeaderAt? (pos : Nat) : DecodeM (Option NodeId) := do
  modifyThe Buffer fun b => b.seek pos
  decodeHeader?

end Foam.Codec
