import Foam.Declaration
import Foam.Program
import Foam.Text.Lossy

/-!
# Questions about units and code

What a unit defines and declares, what a tree may do when it is evaluated, and where control goes in
a sequence of statements.
-/

namespace Foam.Arena

/-! ## Units -/

def progInfo (a : Arena) (prog : NodeId) : Checked ProgInfo :=
  return .ofBits (← a.progInfoBits prog).toUInt64.toUInt32

/-- Some definition of the unit is a procedure that runs as a coroutine. -/
def hasCoroutine (a : Arena) (unit : NodeId) : Checked Bool := do
  (← a.children (← a.unitDefs unit)).anyM fun d => do
    let value ← a.right d
    if value.isNull then return false
    if (← a.tag value) = .prog then return (← a.progInfo value).contains .coroutine
    else return false

/-- The symbols of a group's declarations, those that have one. -/
def groupSymbols (a : Arena) (group : NodeId) : Checked (List UInt32) := do
  (← a.groupDecls group).filterMapM fun d =>
    if d.isNull then return none else return (← a.node d).symbol

/-- The symbols declared by the formats that are present, but for the first of them. -/
def unitSymbols (a : Arena) (unit : NodeId) : Checked (List UInt32) := do
  let groups ← a.children (← a.unitFormats unit)
  return (← (groups.drop 1).mapM a.groupSymbols).flatten

/-- Enters a definition into the values of the constants, if it defines one of them. -/
def enterConst (a : Arena) (values : List NodeId) (defn : NodeId) : Checked (List NodeId) := do
  let left ← a.left defn
  if (← a.tag left) = .const then
    let index := (← a.int left 0).toInt
    if 0 ≤ index ∧ index < values.length then return values.set index.toNat (← a.right defn)
    else return values
  else return values

/-- The value of every constant by number, null for a constant that is not defined. -/
def constValues (a : Arena) (unit : NodeId) : Checked (List NodeId) := do
  let count ← a.formatSize (← a.unitFormats unit) Format.consts
  (← a.children (← a.unitDefs unit)).foldlM a.enterConst (List.replicate count .null)

/-! ## Trees -/

/-- The tree denotes a storage location. -/
def isRef (a : Arena) (id : NodeId) : Checked Bool := return (← a.tag id).isRef

def isDataFrom (a : Arena) : (depth : Nat) → NodeId → Checked Bool
  | 0, _ => throw .cyclic
  | depth + 1, id => do
    let t ← a.tag id
    if t = .cast then isDataFrom a depth (← a.child id 1) else return t.isLiteral

/-- Literal data, or a cast of literal data. -/
def isData (a : Arena) (id : NodeId) : Checked Bool := isDataFrom a a.depthBound id

/-- An assignment to several locations at once. -/
def isMultiAssign (a : Arena) (id : NodeId) : Checked Bool := do
  let t ← a.tag id
  if t = .set ∨ t = .defn then return (← a.tag (← a.left id)) == .values else return false

/-- Some statement of a procedure's body assigns to several locations at once. -/
def hasMultiAssign (a : Arena) (prog : NodeId) : Checked Bool := do
  let body ← a.progBody prog
  if body.isNull then return false else (← a.children body).anyM a.isMultiAssign

def isControlFlow (a : Arena) (id : NodeId) : Checked Bool := return (← a.tag id).isControlFlow

/-- Whether a node has an effect of its own, or none as it is not evaluated; else its operands
decide. -/
def ownEffect? (a : Arena) (id : NodeId) : Checked (Option Bool) := do
  match ← a.tag id with
  | .set | .defn | .pcall | .ocall | .ccall | .catches | .eensure | .yield => return some true
  | .bcall =>
    match ← a.callBuiltin? id with
    | some op => return if op.hasEffect then some true else none
    | none => return none
  | .prog => return some false
  | _ => return none

def hasEffectFrom (a : Arena) : (depth : Nat) → NodeId → Checked Bool
  | 0, _ => throw .cyclic
  | depth + 1, id => do
    match ← a.ownEffect? id with
    | some effect => return effect
    | none => (← a.children id).anyM (hasEffectFrom a depth)

/-- Evaluating the tree can have an effect. Procedures inside it are not evaluated. -/
def hasEffect (a : Arena) (id : NodeId) : Checked Bool := hasEffectFrom a a.depthBound id

/-! ## Searching -/

/-- The outcome of a search and how many nodes it has tried. -/
structure Search where
  found : Option NodeId
  tried : Nat

/-- Searches one tree after the other until a node is found. -/
def searchEach (search : Nat → NodeId → Checked Search) : (tried : Nat) → List NodeId → Checked Search
  | tried, [] => return ⟨none, tried⟩
  | tried, c :: cs => do
    let s ← search tried c
    if s.found.isSome then return s else searchEach search s.tried cs

def searchFrom (a : Arena) (test : Node → Bool) : (depth : Nat) → (tried : Nat) → NodeId → Checked Search
  | 0, _, _ => throw .cyclic
  | depth + 1, tried, id => do
    let n ← a.node id
    if test n then return ⟨some id, tried + 1⟩
    else searchEach (searchFrom a test depth) (tried + 1) n.children

/-- The first node that passes the test, a node before its children. -/
def search (a : Arena) (test : Node → Bool) (id : NodeId) : Checked Search :=
  if id.isNull then return ⟨none, 0⟩ else searchFrom a test a.depthBound 0 id

def findTag? (a : Arena) (tag : Tag) (id : NodeId) : Checked (Option NodeId) :=
  return (← a.search (·.tag == tag) id).found

/-- The first slot holds the given number. -/
def startsWithInt (v : Int64) (n : Node) : Bool := n.slots.head? == some (.int v)

/-! ## Sequences -/

/-- The number of statements of a `Seq` with the given tag. -/
def countStatements (a : Arena) (seq : NodeId) (tag : Tag) : Checked Nat := do
  if (← a.tag seq) = .seq then
    return (← (← a.children seq).mapM a.tag).count tag
  else throw .notSeq

/-- Statement `index` of a sequence. -/
def statement (a : Arena) (seq : NodeId) (index : Int) : Checked NodeId :=
  if index < 0 then do
    let _ ← a.slots seq
    throw .outOfBounds
  else a.child seq index.toNat

/-- The first label from statement `index` on, within `fuel` statements. -/
def labelFrom? (a : Arena) (seq : NodeId) : (fuel : Nat) → (index : Int) → Checked (Option Int)
  | 0, _ => return none
  | fuel + 1, index => do
    if (← a.tag (← a.statement seq index)) = .label then return some index
    else labelFrom? a seq fuel (index + 1)

/-- The statement that control reaches after statement `index`, or `-1` when it leaves the sequence.
Before the first statement control is at `-1`. After a jump or an exit only a label is reached. -/
def nextReachable (a : Arena) (seq : NodeId) (index : Int) : Checked Int := do
  let count ← a.slotCount seq
  if index = count - 1 then return -1
  if index = -1 then return 0
  let t ← a.tag (← a.statement seq index)
  if t = .goto || t.exitsSeq then
    return (← a.labelFrom? seq (count - (index + 1)).toNat (index + 1)).getD (-1)
  else return index + 1

/-! ## Character arrays -/

/-- The text that an array of characters holds up to its last element, which ends it. -/
def arrayText? (a : Arena) (array : NodeId) : Checked (Option String) := do
  if (← a.tag array) ≠ .arr then return none
  if (← a.int array 0).toInt ≠ Tag.ordinal .char then return none
  let bytes := (← a.intsFrom array 1).map fun v => v.toUInt64.toUInt8
  return some (Text.Lossy.decode bytes.dropLast)

end Foam.Arena
