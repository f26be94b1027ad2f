import Foam.Audit.Config
import Foam.Audit.Report

/-!
# The context of a node

What the rules need to know besides the node: the declarations of the unit, those of the nearest
procedure around the node, and the constant that is being defined.
-/

namespace Foam.Audit

/-- The nearest procedure and what it declares. -/
structure Frame where
  /-- Null outside any procedure. -/
  prog : NodeId
  levels : Nat
  locals : Nat
  params : Nat

namespace Frame

/-- Outside any procedure there is one level, with the empty format, and no variable. -/
def ofUnit : Frame := ⟨.null, 1, 0, 0⟩

/-- The size of a declaration group that may be absent. -/
def sizeOf (a : Arena) (group : NodeId) : Checked Nat :=
  if group.isNull then return 0 else a.groupSize group

def ofProg (a : Arena) (prog : NodeId) : Checked Frame := do
  let levelNode ← a.progLevels prog
  let levels ← if levelNode.isNull then pure 0 else a.slotCount levelNode
  let locals ← sizeOf a (← a.progLocals prog)
  let params ← sizeOf a (← a.progParams prog)
  return ⟨prog, levels, locals, params⟩

/-- The format of a level. -/
def levelFormat? (f : Frame) (a : Arena) (level : Int) : Checked (Option Int) := do
  if f.prog.isNull then return if level = 0 then some Format.empty else none
  else return (← a.levelFormat? f.prog level).map Int64.toInt

end Frame

/-- What stays the same throughout a unit. -/
structure UnitContext where
  arena : Arena
  config : Config
  formats : NodeId
  formatCount : Nat
  constCount : Nat
  globalCount : Nat
  fluidCount : Nat

namespace UnitContext

def ofUnit (a : Arena) (config : Config) (unit : NodeId) : Checked UnitContext := do
  let formats ← a.unitFormats unit
  let formatCount ← if formats.isNull then pure 0 else a.slotCount formats
  let consts ← a.formatSize formats Format.consts
  let globals ← a.formatSize formats Format.globals
  let fluids ← a.formatSize formats Format.fluids
  return ⟨a, config, formats, formatCount, consts, globals, fluids⟩

/-- The format table has an entry at the index, present or not. -/
def hasFormat (u : UnitContext) (format : Int) : Bool := 0 ≤ format && format < u.formatCount

def formatSize (u : UnitContext) (format : Int) : Checked Nat := u.arena.formatSize u.formats format

end UnitContext

/-- What applies to one node. -/
structure Context extends UnitContext where
  frame : Frame
  constNum : Option Int64

namespace Context

/-- The type of an expression where it stands. -/
def typeOf (c : Context) (expr : NodeId) : Checked (Except ExprTypeError ExprType) :=
  ExprType.of c.arena (Scope.lookup? ⟨c.frame.prog, c.formats⟩ c.arena) expr

/-- The context of what is inside a node: a procedure brings its own frame, and the definition of a
constant the number of the constant. -/
def enter (c : Context) (id : NodeId) (tag : Tag) : Checked Context := do
  match tag with
  | .prog => return { c with frame := ← Frame.ofProg c.arena id }
  | .defn =>
    let left ← c.arena.left id
    if left.isNull then return c
    if (← c.arena.tag left) = .const then
      return { c with constNum := some (← c.arena.int left 0) }
    else return c
  | _ => return c

end Context

end Foam.Audit
