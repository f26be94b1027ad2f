import Foam.Arena.Field
import Foam.Protocol

/-!
# Declarations and formats

A unit has a table of formats, each a group of declarations. Groups and declarations are found by
index; an index outside the group, and a declaration that is absent, are answered alike by none.
-/

namespace Foam.Arena

/-! ## Groups -/

/-- The number of declarations in a group. -/
def groupSize (a : Arena) (group : NodeId) : Checked Nat := return (← a.slotCount group) - 1

/-- A child if it is present. -/
def present (id : NodeId) : Option NodeId := if id.isNull then none else some id

/-- Declaration `index` of a group. -/
def groupDecl? (a : Arena) (group : NodeId) (index : Int) : Checked (Option NodeId) := do
  if index < 0 then return none
  if index.toNat < (← a.groupSize group) then
    return present (← a.child group (1 + index.toNat))
  else return none

/-! ## Formats -/

/-- Format `index` of a format table, which itself may be absent. -/
def format? (a : Arena) (formats : NodeId) (index : Int) : Checked (Option NodeId) := do
  if index < 0 || formats.isNull then return none
  if index.toNat < (← a.slotCount formats) then
    return present (← a.child formats index.toNat)
  else return none

/-- The number of declarations of a format, zero if there is no such format. -/
def formatSize (a : Arena) (formats : NodeId) (index : Int) : Checked Nat := do
  match ← a.format? formats index with
  | some group => a.groupSize group
  | none => return 0

def formatUsage? (a : Arena) (formats : NodeId) (index : Int) : Checked (Option Usage) := do
  match ← a.format? formats index with
  | some group => a.groupUsage? group
  | none => return none

/-- Declaration `index` of a format. -/
def formatDecl? (a : Arena) (formats : NodeId) (format index : Int) : Checked (Option NodeId) := do
  match ← a.format? formats format with
  | some group => a.groupDecl? group index
  | none => return none

/-- The format of a lexical level of a procedure. -/
def levelFormat? (a : Arena) (prog : NodeId) (level : Int) : Checked (Option Int64) := do
  let levels ← a.progLevels prog
  if level < 0 || levels.isNull then return none
  if level.toNat < (← a.slotCount levels) then return some (← a.int levels level.toNat)
  else return none

/-! ## Declarations -/

/-- The same type and the same format. -/
def declEqual (a : Arena) (d e : NodeId) : Checked Bool := do
  if (← a.declTypeOrdinal d) = (← a.declTypeOrdinal e) then
    return (← a.declFormat d) == (← a.declFormat e)
  else return false

def isExport (a : Arena) (gdecl : NodeId) : Checked Bool := return (← a.direction gdecl) == 1

def isImport (a : Arena) (gdecl : NodeId) : Checked Bool := return (← a.direction gdecl) == 0

/-- Exported by the given protocol. -/
def isExportOf (a : Arena) (protocol : Protocol) (gdecl : NodeId) : Checked Bool := do
  if ← a.isExport gdecl then return (← a.linkage gdecl).toInt == protocol.ordinal else return false

/-! ## Records that end in an array

The format of the first declaration is the number `n` of fields before the array. The next `n`
declarations are those fields, and the rest are the fields of an array element. -/

/-- The number of fields before the array. -/
def leadingCount? (a : Arena) (group : NodeId) : Checked (Option Int64) := do
  match ← a.groupDecl? group 0 with
  | some first => return some (← a.int first 3)
  | none => return none

/-- A field before the array. -/
def leadingDecl? (a : Arena) (group : NodeId) (field : Int) : Checked (Option NodeId) := do
  if field < 0 then return none
  match ← a.leadingCount? group with
  | some n => if n.toInt ≤ field then return none else a.groupDecl? group (1 + field)
  | none => return none

/-- A field of an array element. The number of fields before the array is not checked, so the index
of the field may be that of the first declaration, a negative one, or more than 64 bits hold. -/
def elementDecl? (a : Arena) (group : NodeId) (field : Int) : Checked (Option NodeId) := do
  if field < 0 then return none
  match ← a.leadingCount? group with
  | some n =>
    let index := 1 + n.toInt + field
    if index ≤ Int64.maxValue.toInt then a.groupDecl? group index else throw .overflow
  | none => return none

/-! ## Results of several values -/

/-- The type of a call without a value. -/
def isVoid (a : Arena) (formats : NodeId) (type : Tag) (format : Int) : Checked Bool := do
  if type = .nop then
    if format = 0 then return true else return (← a.formatSize formats format) == 0
  else return false

/-- The type of a call with the values that the format lists. -/
def isMulti (a : Arena) (formats : NodeId) (type : Tag) (format : Int) : Checked Bool := do
  if type = .nop ∧ format ≠ 0 then return decide (0 < (← a.formatSize formats format))
  else return false

end Foam.Arena
