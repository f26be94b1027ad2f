import Foam.Proofs.Audit.Sharing

/-!
# The walk with a context of its own

The context of a node need not be passed down to it: the walk can keep it beside what it has found,
change it on entering a procedure or the definition of a constant and put back the old one on leaving.
Every node leaves the context as it was, so siblings come upon the same one, and what is found is the
same (`visitScoped_agrees`, `audit_eq_scoped`).
-/

namespace Foam.Audit

/-- The findings, and the context the walk is in. -/
structure Auditor extends State where
  frame : Frame
  constNum : Option Int64

abbrev ScopedM := StateT Auditor Checked

/-- Looks for faults and failures in the context the walk is in. -/
def inContext (u : UnitContext) (find : Context → AuditM Unit) : ScopedM Unit := fun s => do
  let ((), found) ← find ⟨u, s.frame, s.constNum⟩ s.toState
  return ((), ⟨found, s.frame, s.constNum⟩)

/-- Makes the context that of what is inside a node. -/
def enterScoped (u : UnitContext) (id : NodeId) (tag : Tag) : ScopedM Unit := do
  match tag with
  | .prog =>
    let inside ← Frame.ofProg u.arena id
    modify fun s => { s with frame := inside }
  | .defn =>
    let left ← u.arena.left id
    if left.isNull then return ()
    if (← u.arena.tag left) = .const then
      let index ← u.arena.int left 0
      modify fun s => { s with constNum := some index }
  | _ => return ()

/-- Puts back the context afterwards. -/
def restoring (x : ScopedM Unit) : ScopedM Unit := do
  let outer ← get
  x
  modify fun s => { s with frame := outer.frame, constNum := outer.constNum }

def visitScoped (u : UnitContext) : (depth : Nat) → NodeId → ScopedM Unit
  | 0, _ => (throw .cyclic : Checked _)
  | depth + 1, id => do
    if id.isNull then return ()
    if (← get).visited.contains id then inContext u fun c => addFault c id .badSharing
    else
      modify fun s => { s with visited := id :: s.visited }
      let n ← u.arena.node id
      restoring do
        enterScoped u id n.tag
        n.children.forM (visitScoped u depth)
        inContext u fun c => examine c id n.tag

variable {u : UnitContext} {f : Frame} {k : Option Int64}

/-- In a context `x` finds what `y` finds, and it leaves the context as it was. -/
def Agrees (f : Frame) (k : Option Int64) (x : ScopedM Unit) (y : AuditM Unit) : Prop :=
  ∀ s, x ⟨s, f, k⟩ = (do
    let ((), found) ← y s
    return ((), ⟨found, f, k⟩))

theorem Agrees.forM {x : NodeId → ScopedM Unit} {y : NodeId → AuditM Unit}
    (h : ∀ id, Agrees f k (x id) (y id)) (ids : List NodeId) :
    Agrees f k (ids.forM x) (ids.forM y) := by
  induction ids with
  | nil => exact fun _ => rfl
  | cons id ids ih =>
      intro s
      show (x id ⟨s, f, k⟩ >>= fun p => ids.forM x p.2) =
        ((y id s >>= fun p => ids.forM y p.2) >>= _)
      rw [h id s]
      cases y id s with
      | error m => rfl
      | ok p => exact ih p.2

theorem inContext_agrees (find : Context → AuditM Unit) :
    Agrees f k (inContext u find) (find ⟨u, f, k⟩) := fun _ => rfl

/-- The context that is entered is the one that would be passed down. -/
theorem enterScoped_eq (id : NodeId) (tag : Tag) (s : State) :
    enterScoped u id tag ⟨s, f, k⟩ = (do
      let inside ← Context.enter ⟨u, f, k⟩ id tag
      return ((), ⟨s, inside.frame, inside.constNum⟩)) := by
  by_cases hprog : tag = .prog
  · subst hprog
    show ((Frame.ofProg u.arena id : ScopedM Frame) >>= _) _ = _
    rw [Checked.run_lift_bind, Context.enter, bind_assoc]
    rfl
  by_cases hdefn : tag = .defn
  · subst hdefn
    show ((u.arena.left id : ScopedM NodeId) >>= _) _ = _
    rw [Checked.run_lift_bind, Context.enter, bind_assoc]
    congr 1
    funext left
    split
    · rfl
    · rw [Checked.run_lift_bind, bind_assoc]
      congr 1
      funext leftTag
      split
      · rw [Checked.run_lift_bind, bind_assoc]
        rfl
      · rfl
  · cases tag <;> first | rfl | exact absurd rfl hprog | exact absurd rfl hdefn

theorem visitScoped_seen {depth : Nat} {id : NodeId} {s : State} (hid : id.isNull = false)
    (hs : id ∈ s.visited) : visitScoped u (depth + 1) id ⟨s, f, k⟩ =
      inContext u (fun c => addFault c id .badSharing) ⟨s, f, k⟩ := by
  have hcontains : s.visited.contains id = true := by simpa using hs
  rw [visitScoped, hid, if_neg Bool.false_ne_true]
  show (if s.visited.contains id then inContext u fun c => addFault c id .badSharing
    else _ : ScopedM Unit) _ = _
  rw [hcontains, if_pos rfl]

theorem visitScoped_unseen {depth : Nat} {id : NodeId} {s : State} (hid : id.isNull = false)
    (hs : id ∉ s.visited) : visitScoped u (depth + 1) id ⟨s, f, k⟩ = (do
      let n ← (u.arena.node id : ScopedM Node)
      restoring do
        enterScoped u id n.tag
        n.children.forM (visitScoped u depth)
        inContext u fun c => examine c id n.tag : ScopedM Unit)
          ⟨⟨id :: s.visited, s.faults, s.failures⟩, f, k⟩ := by
  have hcontains : s.visited.contains id = false := by simpa using hs
  rw [visitScoped, hid, if_neg Bool.false_ne_true]
  show (if s.visited.contains id then inContext u fun c => addFault c id .badSharing
    else _ : ScopedM Unit) _ = _
  rw [hcontains, if_neg Bool.false_ne_true]
  rfl

theorem restoring_apply (x : ScopedM Unit) (s : State) :
    restoring x ⟨s, f, k⟩ = (do
      let ((), inside) ← x ⟨s, f, k⟩
      return ((), ⟨inside.toState, f, k⟩)) := rfl

/-- What two steps find one after the other. -/
theorem Agrees.bind {x x' : ScopedM Unit} {y y' : AuditM Unit} (h : Agrees f k x y)
    (h' : Agrees f k x' y') : Agrees f k (x >>= fun _ => x') (y >>= fun _ => y') := by
  intro s
  show (x ⟨s, f, k⟩ >>= fun p => x' p.2) = ((y s >>= fun p => y' p.2) >>= _)
  rw [h s]
  cases y s with
  | error m => rfl
  | ok p => exact h' p.2

/-- A node leaves the context as it was, so the walk finds what it finds with the context passed
down. -/
theorem visitScoped_agrees (depth : Nat) (id : NodeId) :
    Agrees f k (visitScoped u depth id) (visit depth ⟨u, f, k⟩ id) := by
  induction depth generalizing id f k with
  | zero => exact fun _ => rfl
  | succ depth ih =>
      intro s
      cases hnull : id.isNull with
      | true =>
          rw [visitScoped, visit, hnull]
          rfl
      | false =>
          by_cases hs : id ∈ s.visited
          · rw [visitScoped_seen hnull hs, visit_seen hnull hs]
            rfl
          rw [visitScoped_unseen hnull hs, visit_unseen hnull hs, Checked.run_lift_bind,
            Checked.run_lift_bind, bind_assoc]
          congr 1
          funext n
          let s' : State := ⟨id :: s.visited, s.faults, s.failures⟩
          let below : ScopedM Unit := do
            n.children.forM (visitScoped u depth)
            inContext u fun c => examine c id n.tag
          rw [restoring_apply, Checked.run_lift_bind, bind_assoc]
          show ((enterScoped u id n.tag ⟨s', f, k⟩ >>= fun p => below p.2) >>= _) = _
          rw [enterScoped_eq, bind_assoc, bind_assoc]
          cases hinside : Context.enter ⟨u, f, k⟩ id n.tag with
          | error m => rfl
          | ok inside =>
              obtain rfl : inside.toUnitContext = u := enter_toUnitContext hinside
              have hbelow : Agrees inside.frame inside.constNum below
                  (n.children.forM (visit depth inside) >>= fun _ => examine inside id n.tag) :=
                (Agrees.forM ih n.children).bind (inContext_agrees _)
              show (below ⟨s', inside.frame, inside.constNum⟩ >>= _) = _
              rw [hbelow s', bind_assoc]
              rfl

/-- An audit may keep the context that it is in. -/
theorem audit_eq_scoped (a : Arena) (config : Config) (unit : NodeId) :
    audit a config unit = (do
      if (← a.tag unit) = .unit then
        let u ← UnitContext.ofUnit a config unit
        let start : Auditor := ⟨⟨[], [], []⟩, .ofUnit, none⟩
        let ((), s) ← (visitScoped u (a.depthBound + 1) (← a.unitDefs unit)).run start
        return ⟨s.faults, s.failures⟩
      else throw .notUnit) := by
  unfold audit
  congr 1
  funext tag
  split
  · congr 1
    funext u
    congr 1
    funext defs
    show (visit _ ⟨u, .ofUnit, none⟩ defs ⟨[], [], []⟩ >>= _) = (visitScoped u _ defs _ >>= _)
    rw [visitScoped_agrees, bind_assoc]
    rfl
  · rfl

end Foam.Audit
