import Foam.Proofs.Audit.Findings

/-!
# Faults by place

A place in a tree is a node with the nodes around it, and says by itself what the context is: the
nearest procedure around, and the nearest definition of a constant. The faults of an audit are those
that the rules find place by place, children before their parent.
-/

namespace Foam

/-- A node of a tree and the nodes around it, the innermost first. -/
structure Site (α : Type) where
  node : Tree α
  around : List (Tree α)

namespace Tree

variable {α : Type}

mutual
/-- The places of a tree, those of the children before that of their parent. -/
def postorder (around : List (Tree α)) : Tree α → List (Site α)
  | node l tag fs => postorderAll (node l tag fs :: around) fs ++ [⟨node l tag fs, around⟩]
def postorderAll (around : List (Tree α)) : List (Field (Tree α)) → List (Site α)
  | [] => []
  | .leaf _ :: fs => postorderAll around fs
  | .child t :: fs => t.postorder around ++ postorderAll around fs
end

theorem postorderAll_eq (around : List (Tree α)) (fs : List (Field (Tree α))) :
    postorderAll around fs = (subtrees fs).flatMap (postorder around) := by
  induction fs with
  | nil => rw [postorderAll]; rfl
  | cons f fs ih => cases f <;> simp [postorderAll, ih]

@[simp] theorem postorder_node (around : List (Tree α)) (l : α) (tag : Tag)
    (fs : List (Field (Tree α))) : (node l tag fs).postorder around =
      (subtrees fs).flatMap (postorder (node l tag fs :: around)) ++ [⟨node l tag fs, around⟩] := by
  rw [postorder, postorderAll_eq]

theorem mem_postorder_self (t : Tree α) (around : List (Tree α)) :
    ⟨t, around⟩ ∈ t.postorder around := by
  obtain ⟨l, tag, fs⟩ := t
  rw [postorder_node]
  exact List.mem_append_right _ List.mem_cons_self

/-- There is a place for every node. -/
theorem postorder_labels (t : Tree α) (around : List (Tree α)) :
    ((t.postorder around).map (·.node.label)).Perm t.labels := by
  induction t generalizing around with
  | node l tag fs ih =>
      rw [postorder_node, labels_node, List.map_append, List.map_flatMap, List.map_singleton]
      refine List.perm_append_comm.trans (List.Perm.cons l ?_)
      exact List.Perm.flatMap_left _ fun t ht => ih t (mem_subtrees.mp ht) _

/-- What holds of every subtree, and of what lies around the tree, holds at every place and around
it. -/
theorem Every.of_mem_postorder {P : Tree α → Prop} {t : Tree α} (h : t.Every P)
    {around : List (Tree α)} (haround : ∀ x ∈ around, P x) {s : Site α}
    (hs : s ∈ t.postorder around) : s.node.Every P ∧ ∀ x ∈ s.around, P x := by
  induction h generalizing around with
  | @node l tag fs here below ih =>
      rw [postorder_node] at hs
      rcases List.mem_append.mp hs with hs | hs
      · obtain ⟨t, ht, hs⟩ := List.mem_flatMap.mp hs
        exact ih t (mem_subtrees.mp ht) (List.forall_mem_cons.mpr ⟨here, haround⟩) hs
      · obtain rfl := List.mem_singleton.mp hs
        exact ⟨.node here below, haround⟩

end Tree

namespace Site

/-- The nearest procedure around. -/
def prog? (s : Site NodeId) : Option (Tree NodeId) := s.around.find? (·.tag == .prog)

/-- The number of the constant in whose definition the place is, or which is defined there. -/
def constNum? (s : Site NodeId) : Option Int64 :=
  (s.node :: s.around).findSome? Tree.constDefined?

end Site

namespace Audit

/-- What the procedure declares. Without one there is one level, with the empty format, and no
variable. -/
def Frame.ofProg? (a : Arena) : Option (Tree NodeId) → Checked Frame
  | some p => ofProg a p.label
  | none => .ok ofUnit

/-- The context of a place. -/
def contextAt (u : UnitContext) (s : Site NodeId) : Checked Context :=
  (Frame.ofProg? u.arena s.prog?).map fun frame => ⟨u, frame, s.constNum?⟩

theorem contextAt_eq_ok {u : UnitContext} {s : Site NodeId} {c : Context} :
    contextAt u s = .ok c ↔ c.toUnitContext = u ∧
      Frame.ofProg? u.arena s.prog? = .ok c.frame ∧ c.constNum = s.constNum? := by
  unfold contextAt
  cases Frame.ofProg? u.arena s.prog? with
  | error e =>
      constructor
      · intro h
        cases h
      · rintro ⟨-, h, -⟩
        cases h
  | ok frame =>
      constructor
      · intro h
        cases h
        exact ⟨rfl, rfl, rfl⟩
      · rintro ⟨rfl, h, hnum⟩
        cases h
        rw [← hnum]
        rfl

/-- The fault at a place: the rule for the tag of the node, held against the node in its context. -/
def faultAt? (u : UnitContext) (s : Site NodeId) : Checked (Option Fault) := do
  let c ← contextAt u s
  match ← c.fault? s.node.label s.node.tag with
  | some kind => return some ⟨kind, s.node.label, c.constNum, ← u.arena.render s.node.label⟩
  | none => return none

/-! ## Context by place -/

/-- The context is that of what lies inside the nodes `around`. -/
structure Inside (c : Context) (around : List (Tree NodeId)) : Prop where
  frame : Frame.ofProg? c.arena (around.find? (·.tag == .prog)) = .ok c.frame
  constNum : around.findSome? Tree.constDefined? = c.constNum

variable {c inside : Context} {around : List (Tree NodeId)} {t : Tree NodeId}

theorem Inside.enter (h : Inside c around) (hw : c.arena.WellFormed) (ht : t.In c.arena)
    (hinside : c.enter t.label t.tag = .ok inside) : Inside inside (t :: around) := by
  obtain ⟨hunit, hframe, hnum⟩ := inside_of_enter hw ht hinside
  refine ⟨?_, ?_⟩
  · rw [congrArg UnitContext.arena hunit, ← hframe, List.find?_cons]
    unfold Frame.inside
    by_cases hprog : t.tag = .prog
    · rw [if_pos hprog, hprog]
      rfl
    · have hbeq : (t.tag == .prog) = false := by simpa using hprog
      rw [if_neg hprog, hbeq]
      exact h.frame
  · rw [hnum, List.findSome?_cons, h.constNum]
    cases t.constDefined? <;> rfl

/-- What lies inside a node and the node itself have the number of the constant in common. -/
theorem Inside.contextAt_eq (h : Inside c around) (hw : c.arena.WellFormed) (ht : t.In c.arena)
    (hinside : c.enter t.label t.tag = .ok inside) :
    contextAt c.toUnitContext ⟨t, around⟩ = .ok { c with constNum := inside.constNum } := by
  have hconst : (⟨t, around⟩ : Site NodeId).constNum? = inside.constNum :=
    (h.enter hw ht hinside).constNum
  rw [contextAt, Site.prog?, h.frame, hconst]
  rfl

/-- There is no rule for a procedure, and for any other node the procedure around is that around what
is inside. -/
theorem Inside.fault?_eq (h : Inside c around) (hw : c.arena.WellFormed) (ht : t.In c.arena)
    (hinside : c.enter t.label t.tag = .ok inside) :
    ∃ here : Context, contextAt c.toUnitContext ⟨t, around⟩ = .ok here ∧
      here.constNum = inside.constNum ∧
      here.fault? t.label t.tag = inside.fault? t.label t.tag := by
  obtain ⟨hunit, hframe, hnum⟩ := inside_of_enter hw ht hinside
  refine ⟨_, h.contextAt_eq hw ht hinside, rfl, ?_⟩
  by_cases hprog : t.tag = .prog
  · rw [hprog]
    rfl
  · rw [Frame.inside, if_neg hprog] at hframe
    cases inside
    cases hframe
    cases hunit
    rfl

/-! ## Faults by place -/

theorem faults_of_failures {id : NodeId} {causes : List TypeCause} {r : Report}
    (h : collect (failureAt c id) causes = .ok r) : r.faults = [] := by
  induction causes generalizing r with
  | nil =>
      cases h
      rfl
  | cons cause causes ih =>
      obtain ⟨first, hfirst, h⟩ := Checked.bind_eq_ok.mp h
      obtain ⟨rest, hrest, h⟩ := Checked.bind_eq_ok.mp h
      obtain ⟨text, -, hfirst⟩ := Checked.bind_eq_ok.mp hfirst
      cases h
      cases hfirst
      exact (ih hrest : rest.faults = [])

theorem faults_of_failuresAt {id : NodeId} {tag : Tag} {r : Report}
    (h : failuresAt c id tag = .ok r) : r.faults = [] := by
  unfold failuresAt at h
  split at h
  · obtain ⟨causes, -, h⟩ := Checked.bind_eq_ok.mp h
    exact faults_of_failures h
  · cases h
    rfl

theorem faultAt?_of_findingsAt {r : Report} (h : Inside c around) (hw : c.arena.WellFormed)
    (ht : t.In c.arena) (hinside : c.enter t.label t.tag = .ok inside)
    (hr : findingsAt inside t.label t.tag = .ok r) :
    ∃ o, faultAt? c.toUnitContext ⟨t, around⟩ = .ok o ∧ o.toList = r.faults := by
  obtain ⟨here, hhere, hnum, hrule⟩ := h.fault?_eq hw ht hinside
  have harena : inside.arena = c.arena :=
    congrArg UnitContext.arena (inside_of_enter hw ht hinside).1
  obtain ⟨kind, hkind, hr⟩ := Checked.bind_eq_ok.mp hr
  obtain ⟨faults, hfaults, hr⟩ := Checked.bind_eq_ok.mp hr
  obtain ⟨failures, hfailures, hr⟩ := Checked.bind_eq_ok.mp hr
  cases hr
  have hnone : failures.faults = [] := faults_of_failuresAt hfailures
  unfold faultAt?
  rw [hhere, Checked.ok_bind]
  simp only [hrule, hkind, Checked.ok_bind]
  cases kind with
  | none =>
      cases hfaults
      exact ⟨none, rfl, hnone.symm⟩
  | some kind =>
      obtain ⟨first, hfirst, hfaults⟩ := Checked.bind_eq_ok.mp hfaults
      obtain ⟨text, htext, hfirst⟩ := Checked.bind_eq_ok.mp hfirst
      cases hfaults
      cases hfirst
      rw [harena] at htext
      refine ⟨some ⟨kind, t.label, here.constNum, text⟩, ?_, ?_⟩
      · rw [htext]
        rfl
      · rw [hnum]
        simp [Report.append, hnone, Report.clean]

theorem filterMapM_append_ok {α β : Type} {f : α → Checked (Option β)} {xs ys : List α}
    {vs ws : List β} (h : xs.filterMapM f = .ok vs) (h' : ys.filterMapM f = .ok ws) :
    (xs ++ ys).filterMapM f = .ok (vs ++ ws) := by
  induction xs generalizing vs with
  | nil =>
      cases h
      exact h'
  | cons x xs ih =>
      rw [List.filterMapM_cons] at h
      rw [List.cons_append, List.filterMapM_cons]
      obtain ⟨o, ho, h⟩ := Checked.bind_eq_ok.mp h
      rw [ho, Checked.ok_bind]
      cases o with
      | none => exact ih h
      | some v =>
          obtain ⟨rest, hrest, h⟩ := Checked.bind_eq_ok.mp h
          cases h
          simp only [ih hrest]
          rfl

theorem filterMapM_collect {ts : List (Tree NodeId)} {r : Report} {u : UnitContext}
    (h : collect (findings c) ts = .ok r)
    (hts : ∀ t ∈ ts, ∀ r, findings c t = .ok r →
      (t.postorder around).filterMapM (faultAt? u) = .ok r.faults) :
    (ts.flatMap (Tree.postorder around)).filterMapM (faultAt? u) = .ok r.faults := by
  induction ts generalizing r with
  | nil =>
      cases h
      rfl
  | cons t ts ih =>
      obtain ⟨first, hfirst, h⟩ := Checked.bind_eq_ok.mp h
      obtain ⟨rest, hrest, h⟩ := Checked.bind_eq_ok.mp h
      cases h
      exact filterMapM_append_ok (hts t List.mem_cons_self first hfirst)
        (ih hrest fun t ht => hts t (List.mem_cons_of_mem _ ht))

/-- The faults that are found in a tree are those at its places. -/
theorem faults_of_findings {r : Report} (hw : c.arena.WellFormed) (ht : t.In c.arena)
    (h : Inside c around) (hr : findings c t = .ok r) :
    (t.postorder around).filterMapM (faultAt? c.toUnitContext) = .ok r.faults := by
  induction t generalizing c around r with
  | node id tag fs ih =>
      rw [findings_node] at hr
      obtain ⟨inside, hinside, hr⟩ := Checked.bind_eq_ok.mp hr
      obtain ⟨below, hbelow, hr⟩ := Checked.bind_eq_ok.mp hr
      obtain ⟨here, hhere, hr⟩ := Checked.bind_eq_ok.mp hr
      cases hr
      have hunit : inside.toUnitContext = c.toUnitContext := (inside_of_enter hw ht hinside).1
      have harena : inside.arena = c.arena := congrArg UnitContext.arena hunit
      obtain ⟨o, ho, hfaults⟩ := faultAt?_of_findingsAt h hw ht hinside hhere
      rw [Tree.postorder_node]
      refine filterMapM_append_ok (filterMapM_collect hbelow ?_) ?_
      · intro t hmem r hr
        have hchild : .child t ∈ fs := Tree.mem_subtrees.mp hmem
        rw [← hunit]
        exact ih t hchild (by rwa [harena]) (by rw [harena]; exact ht.child hchild)
          (h.enter hw ht hinside) hr
      · rw [List.filterMapM_cons, ho, ← hfaults]
        cases o <;> rfl

/-- The faults of an audit of a unit whose definitions are a tree are those of the places in it, one
after the other: at each the fault that the rule for the node's tag finds in the context of the place,
if any. No fault comes of anything else. -/
theorem audit_faults {a : Arena} {config : Config} {unit : NodeId} {r : Report}
    (hw : a.WellFormed) (defs : Option (Tree NodeId))
    (hdefs : a.unitDefs unit = .ok (defs.elim .null Tree.label))
    (hstrict : ∀ t ∈ defs, t.In a ∧ t.labels.Nodup) (hrun : audit a config unit = .ok r) :
    ∃ u, UnitContext.ofUnit a config unit = .ok u ∧
      (defs.elim [] (Tree.postorder [])).filterMapM (faultAt? u) = .ok r.faults := by
  obtain ⟨htag, u, id, hu, -⟩ := audit_ok hrun
  have harena : u.arena = a := (UnitContext.ofUnit_eq_ok.mp hu).1
  rw [audit_eq hw htag hu defs hdefs hstrict] at hrun
  refine ⟨u, hu, ?_⟩
  cases defs with
  | none =>
      cases hrun
      rfl
  | some t =>
      have hin : t.In a := (hstrict t rfl).1
      exact faults_of_findings (c := ⟨u, .ofUnit, none⟩) (by rwa [harena]) (by rwa [harena])
        ⟨rfl, rfl⟩ hrun

/-- In the definition of constant zero, of which there is none, local zero is declared inside a
procedure and not after it. -/
theorem audit_faults_around_procedure :
    let a : Arena := .ofRows [some (.bare .unit [.code .null, .code ⟨1⟩]), some (.bare .ddef [.code ⟨2⟩]),
      some (.bare .defn [.code ⟨3⟩, .code ⟨4⟩]), some (.bare .const [.int 0]),
      some (.bare .seq [.code ⟨5⟩, .code ⟨9⟩]),
      some (.bare .prog [.int 0, .int 0, .int 0, .int 0, .int 0, .int 0, .int 0, .int 0,
        .code .null, .code ⟨6⟩, .code .null, .code .null, .code ⟨8⟩]),
      some (.bare .ddecl [.int 3, .code ⟨7⟩]),
      some (.bare .decl [.int 5, .str "x", .int 0, .int 4]),
      some (.bare .loc [.int 0]), some (.bare .loc [.int 0])] []
    let decl : Tree NodeId := .node ⟨7⟩ .decl
      [.leaf (.int 5), .leaf (.str "x"), .leaf (.int 0), .leaf (.int 4)]
    let prog : Tree NodeId := .node ⟨5⟩ .prog
      (List.replicate 8 (.leaf (.int 0)) ++ [.leaf (.code .null),
        .child (.node ⟨6⟩ .ddecl [.leaf (.int 3), .child decl]), .leaf (.code .null),
        .leaf (.code .null), .child (.node ⟨8⟩ .loc [.leaf (.int 0)])])
    let defs : Option (Tree NodeId) := some (.node ⟨1⟩ .ddef [.child (.node ⟨2⟩ .defn
      [.child (.node ⟨3⟩ .const [.leaf (.int 0)]), .child (.node ⟨4⟩ .seq
        [.child prog, .child (.node ⟨9⟩ .loc [.leaf (.int 0)])])])])
    let r : Report := ⟨[⟨.badRef, ⟨3⟩, some 0, "(Const 0)"⟩, ⟨.badRef, ⟨9⟩, some 0, "(Loc 0)"⟩], []⟩
    a.WellFormed ∧ a.unitDefs ⟨0⟩ = .ok (defs.elim .null Tree.label) ∧
      (∀ t ∈ defs, t.In a ∧ t.labels.Nodup) ∧ audit a .standard ⟨0⟩ = .ok r ∧
      ∃ u, UnitContext.ofUnit a .standard ⟨0⟩ = .ok u ∧
        (defs.elim [] (Tree.postorder [])).filterMapM (faultAt? u) = .ok r.faults := by
  intro a decl prog defs r
  have hw : a.WellFormed := by decide
  have hdefs : a.unitDefs ⟨0⟩ = .ok (defs.elim .null Tree.label) := by rfl
  have hstrict : ∀ t ∈ defs, t.In a ∧ t.labels.Nodup := by
    intro t ht
    obtain rfl := Option.mem_some.mp ht
    decide
  have hrun : audit a .standard ⟨0⟩ = .ok r := by rfl
  exact ⟨hw, hdefs, hstrict, hrun, audit_faults hw defs hdefs hstrict hrun⟩

end Audit

end Foam
