import Foam.Audit.Structure
import Foam.Audit.Types
import Foam.SExpr.Printer

/-!
# The audit of a unit

The walk goes through the definitions of a unit, children before their parent, and enters each node
once. Where it comes to a node again, that is a fault and it goes no further. Every node is held
against the rules in the context of the first path to it.
-/

namespace Foam.Audit

/-- The nodes entered so far and what was found. -/
structure State where
  visited : List NodeId
  faults : List Fault
  failures : List TypeFailure

abbrev AuditM := StateT State Checked

/-- Records a fault of a node. -/
def addFault (c : Context) (id : NodeId) (kind : FaultKind) : AuditM Unit := do
  let rendered ← c.arena.render id
  modify fun s => { s with faults := s.faults ++ [⟨kind, id, c.constNum, rendered⟩] }

/-- Records a type failure of a node. -/
def addFailure (c : Context) (id : NodeId) (cause : TypeCause) : AuditM Unit := do
  let rendered ← c.arena.render id
  modify fun s => { s with failures := s.failures ++ [⟨id, c.constNum, cause, rendered⟩] }

/-- Holds a node against the rules. -/
def examine (c : Context) (id : NodeId) (tag : Tag) : AuditM Unit := do
  (← c.fault? id tag).toList.forM (addFault c id)
  if c.config.typeChecking then (← c.typeCauses id tag).forM (addFailure c id)

def visit : (depth : Nat) → Context → NodeId → AuditM Unit
  | 0, _, _ => (throw .cyclic : Checked _)
  | depth + 1, c, id => do
    if id.isNull then return ()
    if (← get).visited.contains id then addFault c id .badSharing
    else
      modify fun s => { s with visited := id :: s.visited }
      let n ← c.arena.node id
      let inside ← c.enter id n.tag
      n.children.forM (visit depth inside)
      examine inside id n.tag

/-- Audits the definitions of a unit. Every step down enters a node, which bounds the depth. -/
def audit (a : Arena) (config : Config) (unit : NodeId) : Checked Report := do
  if (← a.tag unit) = .unit then
    let u ← UnitContext.ofUnit a config unit
    let ((), s) ← (visit (a.depthBound + 1) ⟨u, .ofUnit, none⟩ (← a.unitDefs unit)).run ⟨[], [], []⟩
    return ⟨s.faults, s.failures⟩
  else throw .notUnit

end Foam.Audit
