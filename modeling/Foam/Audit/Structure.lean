import Foam.Audit.Context

/-!
# Structural rules

Each tag has at most one rule, about a node of that tag in its context. A rule says what kind of fault
there is, if any; sharing is no matter of one node and is found on the walk.
-/

namespace Foam.Audit

/-- The fault, unless the rule holds. -/
def failing (kind : FaultKind) (holds : Bool) : Option FaultKind :=
  if holds then none else some kind

namespace Context

/-- An index is below a count. -/
def bounded (index : Int64) (count : Nat) : Option FaultKind :=
  failing .badRef (0 ≤ index.toInt && index.toInt < count)

/-- An assignment to several locations has one at least. -/
def assignFault? (c : Context) (id : NodeId) : Checked (Option FaultKind) := do
  let left ← c.arena.left id
  if left.isNull then return none
  if (← c.arena.tag left) = .values then
    return failing .badRef ((← c.arena.slotCount left) != 0)
  else return none

/-- A lexical reference names a level, whose format exists and has the index. -/
def lexFault? (c : Context) (id : NodeId) : Checked (Option FaultKind) := do
  let level := (← c.arena.int id 0).toInt
  if level < 0 || c.frame.levels ≤ level then return some .badRef
  match ← c.frame.levelFormat? c.arena level with
  | some format =>
    if c.hasFormat format then return bounded (← c.arena.int id 1) (← c.formatSize format)
    else return some .badRef
  | none => return some .badRef

/-- An element of an environment names a format that has the index, and a level. -/
def envElementFault? (c : Context) (id : NodeId) : Checked (Option FaultKind) := do
  let format := (← c.arena.int id 0).toInt
  if c.hasFormat format then
    let index := (← c.arena.int id 3).toInt
    if 0 ≤ index ∧ index < (← c.formatSize format) then
      return failing .badRef (0 ≤ (← c.arena.int id 2).toInt)
    else return some .badRef
  else return some .badRef

/-- The format of a raw record is given by values. -/
def rawFormatFault? (c : Context) (id : NodeId) : Checked (Option FaultKind) := do
  let format ← c.arena.child id 0
  if format.isNull then return some .badRef
  return failing .badRef ((← c.arena.tag format) == .values)

/-- A cast is of one value, to a pointer not from an integer, to a bignum not from an array. -/
def castFault? (c : Context) (id : NodeId) : Checked (Option FaultKind) := do
  let expr ← c.arena.child id 1
  if expr.isNull then return none
  if (← c.arena.tag expr) = .values then return some .badCast
  match Tag.ofOrdinal? (← c.arena.int id 0).toInt with
  | some .ptr =>
    match ← c.typeOf expr with
    | .ok type => return failing .badType (type.tag != .sint)
    | .error _ => return none
  | some .bint => return failing .badType ((← c.arena.tag expr) != .arr)
  | _ => return none

/-- The format of a declaration suits its type. -/
def declFault? (c : Context) (id : NodeId) : Checked (Option FaultKind) := do
  let format := (← c.arena.declFormat id).toInt
  match ← c.arena.declType? id with
  | some .arr =>
    match Tag.ofOrdinal? format with
    | some t => return failing .badDecl (t.isDataType || t == .bint)
    | none => return some .badDecl
  | some .javaObj | some .cobj => return failing .badDecl (c.hasFormat format)
  | some .record => return none
  | _ => return failing .badDecl (format == Format.empty || format == 0)

/-- Formats that any number of levels may have. -/
def isShareable (format : Int64) : Bool := format.toInt == Format.empty || format == 0

/-- The formats of levels exist, and those that are not shareable serve one level only. -/
def levelsFault? (c : Context) (id : NodeId) : Checked (Option FaultKind) := do
  let formats ← c.arena.intsFrom id 0
  return failing .badEnv (formats.all (fun f => c.hasFormat f.toInt) &&
    decide (formats.filter (!isShareable ·)).Nodup)

/-- The signature of a global that is a Java method. -/
def javaSignature? (c : Context) (global : NodeId) : Checked (Option NodeId) := do
  let index := (← c.arena.int global 0).toInt
  match ← c.arena.formatDecl? c.formats Format.globals index with
  | none => return none
  | some decl =>
    match ← c.arena.format? c.formats (← c.arena.declFormat decl).toInt with
    | none => return none
    | some group =>
      return if (← c.arena.groupUsage? group) = some .javaSig then some group else none

/-- A Java call is by an array of characters, or by a global whose signature has as many parameters
as the call has arguments. The signature begins with the result. -/
def callFault? (c : Context) (id : NodeId) : Checked (Option FaultKind) := do
  let protocol := Protocol.ofOrdinal? (← c.arena.int id 0).toInt
  if !(protocol.map Protocol.isJava).getD false then return none
  let op ← c.arena.child id 2
  if op.isNull then return some .badType
  match ← c.arena.tag op with
  | .arr => return failing .badType ((← c.arena.int op 0).toInt == Tag.ordinal .char)
  | .glo =>
    let args := (← c.arena.slotCount id) - 3
    match ← c.javaSignature? op with
    | some sig => return failing .badType (((← c.arena.groupSize sig) : Int) - 1 == args)
    | none => return some .badType
  | _ => return some .badType

/-- The fault of a node by the rule of its tag. -/
def fault? (c : Context) (id : NodeId) (tag : Tag) : Checked (Option FaultKind) := do
  match tag with
  | .set | .defn => c.assignFault? id
  | .loc => return bounded (← c.arena.int id 0) c.frame.locals
  | .par => return bounded (← c.arena.int id 0) c.frame.params
  | .const => return bounded (← c.arena.int id 0) c.constCount
  | .glo => return bounded (← c.arena.int id 0) c.globalCount
  | .fluid => return bounded (← c.arena.int id 0) c.fluidCount
  | .env => return bounded (← c.arena.int id 0) c.frame.levels
  | .lex => c.lexFault? id
  | .eelt => c.envElementFault? id
  | .relt | .rnew | .pushEnv => return bounded (← c.arena.int id 0) c.formatCount
  | .rrelt => return failing .badRef (0 ≤ (← c.arena.int id 0).toInt)
  | .rrfmt => c.rawFormatFault? id
  | .cast => c.castFault? id
  | .decl => c.declFault? id
  | .denv => c.levelsFault? id
  | .pcall => c.callFault? id
  | _ => return none

end Context

end Foam.Audit
