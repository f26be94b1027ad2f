import Foam.Audit.Context

/-!
# Typing rules

Rules about one node and the types of its operands. They are not complete: a unit that passes need
not be well typed. A rule lists the causes of failure in the order in which it comes upon them.
-/

namespace Foam.Audit

/-- Types that are accepted for one another though they differ. -/
def looselyEqual (expected actual : Tag) : Bool :=
  match expected, actual with
  | .nil, .ptr | .ptr, .nil | .word, .nil => true
  | _, _ => false

namespace Context

/-- The type of an operand, or why it has none. -/
def operand (c : Context) (expr : NodeId) : Checked (Except TypeCause ExprType) := do
  if expr.isNull then return .error .missingOperand
  match ← c.typeOf expr with
  | .ok t => return .ok t
  | .error e => return .error (.untyped e)

/-- A format lays out an environment. -/
def envCauses (c : Context) (format : Int64) : Checked (List TypeCause) := do
  if !c.config.enabled .envs || format.toInt == Format.envUsed then return []
  match ← c.arena.formatUsage? c.formats format.toInt with
  | some u => return if u.isEnv then [] else [.notEnv format]
  | none => return [.notEnv format]

/-- The format of a value of record type lays out a record. -/
def recordCauses (c : Context) (type : ExprType) : Checked (List TypeCause) := do
  if type.tag ≠ .record || !c.config.enabled .records then return []
  if (← c.arena.formatUsage? c.formats type.extra.toInt) = some .records then return []
  else return [.notRecord type.extra]

/-- Value `i` of several has the type and format of its declaration in the group. -/
def valueCauses (c : Context) (group : NodeId) (i : Nat) (value : NodeId) :
    Checked (List TypeCause) := do
  match ← c.operand value with
  | .error e => return [e]
  | .ok type =>
    match ← c.arena.groupDecl? group i with
    | none => return []
    | some decl =>
      let declared ← c.arena.declType? decl
      let typeCause := if declared = some type.tag then [] else [.valueType i type.tag declared]
      let formatCause ←
        if type.tag = .record ∨ type.tag = .arr then do
          let format ← c.arena.declFormat decl
          pure (if type.extra = format then [] else [TypeCause.valueFormat i])
        else pure []
      return typeCause ++ formatCause ++ (← c.recordCauses type)

/-- Several values are as many as the format has declarations, and each suits its own. Format zero
is that of no values. -/
def valuesCauses (c : Context) (values : NodeId) (format : Int64) : Checked (List TypeCause) := do
  if !c.config.enabled .values then return []
  let given ← c.arena.slotCount values
  let slots ← if format = 0 then pure 0 else c.formatSize format.toInt
  if given ≠ slots then return [.valueCount given slots]
  match ← c.arena.format? c.formats format.toInt with
  | none => return []
  | some group =>
    let vs ← c.arena.childrenFrom values 0
    return (← vs.zipIdx.mapM fun (v, i) => c.valueCauses group i v).flatten

/-- A location takes the type of a value. -/
def assignable (left right : ExprType) : List TypeCause :=
  let differ (skipped : List Int) :=
    left.extra != right.extra && !skipped.contains left.extra.toInt &&
      !skipped.contains right.extra.toInt
  if looselyEqual left.tag right.tag then []
  else if left.tag ≠ right.tag then [.assigns right.tag left.tag]
  else if left.tag = .record ∧ differ [Format.empty] then [.recordFormats left.extra right.extra]
  else if left.tag = .arr ∧ differ [0, Format.empty] then [.elementTypes]
  else []

def assignCauses (c : Context) (id : NodeId) : Checked (List TypeCause) := do
  let left ← c.arena.left id
  let right ← c.arena.right id
  if left.isNull || right.isNull then return []
  let leftTag ← c.arena.tag left
  if leftTag = .values then
    if (← c.arena.tag right) = .mfmt then c.valuesCauses left (← c.arena.int right 0)
    else return [.withoutMFmt]
  else if !leftTag.isRef && leftTag != .fluid then return [.notAssignable leftTag]
  else
    match ← c.operand left, ← c.operand right with
    | .ok l, .ok r => return assignable l r
    | .error e, .ok _ | .ok _, .error e => return [e]
    | .error e, .error f => return [e, f]

def branchCauses (c : Context) (id : NodeId) : Checked (List TypeCause) := do
  match ← c.operand (← c.arena.child id 0) with
  | .ok t => return if t.tag = .bool then [] else [.testNotBool t.tag]
  | .error e => return [e]

def returnCauses (c : Context) (id : NodeId) : Checked (List TypeCause) := do
  if c.frame.prog.isNull then return []
  let value ← c.arena.child id 0
  match ← c.arena.progResult? c.frame.prog with
  | none => return []
  | some .nop =>
    if value.isNull then return [.returnsOne]
    if (← c.arena.tag value) = .values then
      c.valuesCauses value (← c.arena.progFormat c.frame.prog)
    else return [.returnsOne]
  | some result =>
    match ← c.operand value with
    | .ok t =>
      return if t.tag = result ∨ looselyEqual result t.tag then [] else [.returns t.tag result]
    | .error e => return [e]

def castCauses (c : Context) (id : NodeId) : Checked (List TypeCause) := do
  match ← c.operand (← c.arena.child id 1) with
  | .ok _ => return []
  | .error e => return [e]

/-- Argument `i` of a builtin has the type of the parameter. -/
def argCauses (c : Context) (op : Builtin) (i : Nat) (arg : NodeId) (param : Tag) :
    Checked (List TypeCause) := do
  match ← c.operand arg with
  | .error e => return [e]
  | .ok type =>
    let typeCause := if type.tag = param then [] else [.argType i op type.tag param]
    return typeCause ++ (← c.recordCauses type)

def builtinCauses (c : Context) (id : NodeId) : Checked (List TypeCause) := do
  match ← c.arena.callBuiltin? id with
  | none => return []
  | some op =>
    let args ← c.arena.builtinArgs id
    let countCause := if args.length = op.params.length then [] else [.argCount op args.length]
    let argCauses ← (args.zip op.params).zipIdx.mapM fun ((arg, param), i) =>
      c.argCauses op i arg param
    return countCause ++ argCauses.flatten

/-- Why a node fails the typing rule of its tag, among the groups that are enabled. -/
def typeCauses (c : Context) (id : NodeId) (tag : Tag) : Checked (List TypeCause) := do
  match tag with
  | .set | .defn => c.assignCauses id
  | .branch => if c.config.enabled .branch then c.branchCauses id else return []
  | .ret => if c.config.enabled .ret then c.returnCauses id else return []
  | .cast => if c.config.enabled .cast then c.castCauses id else return []
  | .pushEnv => c.envCauses (← c.arena.int id 0)
  | .eelt => c.envCauses (← c.arena.int id 0)
  | .bcall => if c.config.enabled .bcall then c.builtinCauses id else return []
  | _ => return []

end Context

end Foam.Audit
