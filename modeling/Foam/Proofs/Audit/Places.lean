import Foam.Proofs.Audit.Sharing

/-!
# What an audit has gone through

An audit that returns has come to an end on every path below the definitions. A node that it met
again it has written out, which takes an end below that node too. So there is no circle, what is
there unfolds to a tree, and the audit has gone the way of the walk through the tree
(`audit_follows`). The type failures at a node are those that are found at the first of its places
(`failures_at_place`).
-/

namespace Foam

open Checked

/-! ## No circles -/

theorem Node.snd_fields {n : Node} (h : n.tag.layout.accepts n.slots.length = true) :
    n.fields.map Prod.snd = n.slots :=
  List.map_snd_zip (Layout.length_kinds h).ge

/-- A node that can be written out is the root of a tree. -/
theorem exists_in_of_renderFrom {a : Arena} (hw : a.WellFormed) {depth : Nat} {id : NodeId}
    {text : String} (hid : id.isNull = false) (h : SExpr.renderFrom a depth id = .ok text) :
    ∃ t : Tree NodeId, t.In a ∧ t.label = id := by
  induction depth generalizing id text with
  | zero => cases h
  | succ depth ih =>
      rw [SExpr.renderFrom, hid, if_neg Bool.false_ne_true] at h
      obtain ⟨n, hn, h⟩ := bind_eq_ok.mp h
      obtain ⟨fields, hfields, -⟩ := bind_eq_ok.mp h
      have hget : a.get? id = some n := Arena.get?_of_node_ok hn
      refine Arena.exists_in_of_children hw hget fun c hc => ?_
      obtain ⟨hs, hnull⟩ := Node.mem_children.mp hc
      rw [← Node.snd_fields (hw.fits id n hget).1] at hs
      obtain ⟨⟨kind, slot⟩, hfield, rfl⟩ := List.mem_map.mp hs
      obtain ⟨text, htext⟩ := of_mapM_eq_ok hfields hfield
      exact ih hnull htext

namespace Audit

variable {a : Arena} {config : Config} {unit root : NodeId} {r : Report} {u : UnitContext}

/-- A node from which the walk comes back is the root of a tree. -/
theorem exists_in_of_visit {c : Context} (hw : c.arena.WellFormed) {depth : Nat} {id : NodeId}
    {s s' : State} (hid : id.isNull = false) (h : visit depth c id s = .ok ((), s')) :
    ∃ t : Tree NodeId, t.In c.arena ∧ t.label = id := by
  induction depth generalizing c id s s' with
  | zero => cases h
  | succ depth ih =>
      by_cases hseen : id ∈ s.visited
      · rw [visit_seen hid hseen] at h
        obtain ⟨text, htext, -⟩ := run_lift_bind_eq_ok.mp h
        exact exists_in_of_renderFrom hw hid htext
      · rcases visit_eq_ok h with ⟨hnull, -⟩ | ⟨hmem, -⟩ |
          ⟨-, n, inside, s₁, r, hn, hinside, hbelow, -, -⟩
        · rw [hid] at hnull
          cases hnull
        · exact absurd hmem hseen
        · have harena : inside.arena = c.arena :=
            congrArg UnitContext.arena (enter_toUnitContext hinside)
          refine Arena.exists_in_of_children hw hn fun x hx => ?_
          obtain ⟨s₂, s₃, hvisit⟩ := of_forM_eq_ok hbelow hx
          rw [← harena]
          exact ih (by rwa [harena]) (Node.mem_children.mp hx).2 hvisit

/-- What is under the definitions of a unit unfolds to a tree, and the audit has followed the walk
through it. -/
theorem audit_follows (hw : a.WellFormed) (hroot : a.unitDefs unit = .ok root)
    (hrun : audit a config unit = .ok r) :
    ∃ (u : UnitContext) (defs : Option (Tree NodeId)) (s : State),
      UnitContext.ofUnit a config unit = .ok u ∧ defs.elim .null Tree.label = root ∧
      (∀ t ∈ defs, t.In a) ∧ Follows u (defs.elim .nil (Tree.walk [] [])) ⟨[], [], []⟩ s ∧
      r = ⟨s.faults, s.failures⟩ := by
  obtain ⟨u, root', s, hu, hroot', hvisit, rfl⟩ := audit_eq_ok hrun
  obtain rfl : root = root' := Except.ok.inj (hroot.symm.trans hroot')
  obtain rfl : u.arena = a := (UnitContext.ofUnit_eq_ok.mp hu).1
  cases hnull : root.isNull with
  | true =>
      obtain rfl : root = .null := by simpa [NodeId.isNull] using hnull
      cases hvisit
      exact ⟨u, none, _, hu, rfl, fun t ht => absurd ht (Option.not_mem_none t), .nil u _, rfl⟩
  | false =>
      obtain ⟨t, ht, rfl⟩ := exists_in_of_visit hw hnull hvisit
      refine ⟨u, some t, s, hu, rfl, fun _ h => Option.mem_some.mp h ▸ ht, ?_, rfl⟩
      exact visit_follows (c := ⟨u, .ofUnit, none⟩) hw ht ⟨rfl, rfl⟩ (fun _ => Iff.rfl) hvisit

/-- Each node under the definitions has a first place, and what is found there makes up the report
but for sharing. -/
theorem audit_places (hw : a.WellFormed) (hroot : a.unitDefs unit = .ok root)
    (hrun : audit a config unit = .ok r) :
    ∃ u sites rules, UnitContext.ofUnit a config unit = .ok u ∧ FirstPlaces a root sites ∧
      collect (findingsAtSite u) sites = .ok rules ∧ rules.failures = r.failures := by
  obtain ⟨u, defs, s, hu, rfl, hin, hfollows, rfl⟩ := audit_follows hw hroot hrun
  obtain ⟨rules, hrules, -, hfailures⟩ := hfollows.found
  refine ⟨u, (defs.elim .nil (Tree.walk [] [])).places, rules, hu, ?_, hrules, hfailures.symm⟩
  cases defs with
  | none => exact (firstPlaces_null hw).1
  | some t => exact walk_firstPlaces (hin t rfl)

/-! ## Failures at a place -/

/-- The failures of a node have the same number and text, whatever the cause. -/
def failuresBy (c : Context) (id : NodeId) (text : String) (causes : List TypeCause) :
    List TypeFailure :=
  causes.map fun cause => ⟨id, c.constNum, cause, text⟩

section

variable {c : Context} {id : NodeId} {tag : Tag} {text : String} {causes : List TypeCause}

theorem node_of_mem_failuresBy {f : TypeFailure} (h : f ∈ failuresBy c id text causes) :
    f.node = id := by
  rw [failuresBy, List.mem_map] at h
  obtain ⟨cause, -, rfl⟩ := h
  rfl

theorem collect_failureAt (htext : c.arena.render id = .ok text) (causes : List TypeCause) :
    collect (failureAt c id) causes = .ok ⟨[], failuresBy c id text causes⟩ := by
  induction causes with
  | nil => rfl
  | cons cause causes ih =>
      rw [collect, failureAt, htext, ok_bind, ih]
      rfl

theorem failures_of_collect (h : collect (failureAt c id) causes = .ok r) :
    ∃ text, (causes ≠ [] → c.arena.render id = .ok text) ∧
      r.failures = failuresBy c id text causes := by
  cases causes with
  | nil =>
      cases h
      exact ⟨"", fun hne => absurd rfl hne, rfl⟩
  | cons cause causes =>
      obtain ⟨first, hfirst, -⟩ := bind_eq_ok.mp h
      obtain ⟨text, htext, -⟩ := bind_eq_ok.mp hfirst
      rw [collect_failureAt htext] at h
      cases h
      exact ⟨text, fun _ => htext, rfl⟩

/-- The failures that are found at a node are those of the causes by the typing rule. -/
theorem failures_of_findingsAt (hon : c.config.typeChecking = true)
    (h : findingsAt c id tag = .ok r) :
    ∃ causes text, c.typeCauses id tag = .ok causes ∧
      (causes ≠ [] → c.arena.render id = .ok text) ∧ r.failures = failuresBy c id text causes := by
  obtain ⟨kind, -, h⟩ := bind_eq_ok.mp h
  obtain ⟨faults, hfaults, h⟩ := bind_eq_ok.mp h
  obtain ⟨rest, hrest, h⟩ := bind_eq_ok.mp h
  rw [failuresAt, hon, if_pos rfl] at hrest
  obtain ⟨causes, hcauses, hrest⟩ := bind_eq_ok.mp hrest
  obtain ⟨text, htext, hfailures⟩ := failures_of_collect hrest
  refine ⟨causes, text, hcauses, htext, ?_⟩
  have hnone : faults.failures = [] := by
    cases kind with
    | none =>
        cases hfaults
        rfl
    | some kind =>
        obtain ⟨first, hfirst, hfaults⟩ := bind_eq_ok.mp hfaults
        obtain ⟨text, -, hfirst⟩ := bind_eq_ok.mp hfirst
        cases hfaults
        cases hfirst
        rfl
  cases h
  rw [Report.append, hnone, hfailures]
  rfl

end

theorem failures_at_site (hon : u.config.typeChecking = true) {s : Site NodeId}
    (h : findingsAtSite u s = .ok r) :
    ∃ c causes text, contextAt u s = .ok c ∧ c.typeCauses s.node.label s.node.tag = .ok causes ∧
      (causes ≠ [] → u.arena.render s.node.label = .ok text) ∧
      r.failures = failuresBy c s.node.label text causes := by
  obtain ⟨c, hc, hfound⟩ := bind_eq_ok.mp h
  obtain ⟨rfl, -, -⟩ := contextAt_eq_ok.mp hc
  obtain ⟨causes, text, hcauses, htext, hfailures⟩ := failures_of_findingsAt hon hfound
  exact ⟨c, causes, text, hc, hcauses, htext, hfailures⟩

theorem node_of_failure (hon : u.config.typeChecking = true) {s : Site NodeId}
    (h : findingsAtSite u s = .ok r) : ∀ f ∈ r.failures, f.node = s.node.label := by
  obtain ⟨c, causes, text, -, -, -, hfailures⟩ := failures_at_site hon h
  intro f hf
  rw [hfailures] at hf
  exact node_of_mem_failuresBy hf

theorem node_of_collect (hon : u.config.typeChecking = true) {sites : List (Site NodeId)}
    (h : collect (findingsAtSite u) sites = .ok r) :
    ∀ f ∈ r.failures, f.node ∈ sites.map (·.node.label) := by
  induction sites generalizing r with
  | nil =>
      cases h
      exact fun f hf => absurd hf List.not_mem_nil
  | cons site sites ih =>
      obtain ⟨first, hfirst, h⟩ := bind_eq_ok.mp h
      obtain ⟨rest, hrest, h⟩ := bind_eq_ok.mp h
      cases h
      intro f hf
      rcases List.mem_append.mp hf with hf | hf
      · rw [node_of_failure hon hfirst f hf]
        exact List.mem_cons_self
      · exact List.mem_cons_of_mem _ (ih hrest f hf)

/-- Where each node has one place, its failures in the report are those found at the place. -/
theorem failures_at_place (hon : u.config.typeChecking = true) {sites : List (Site NodeId)}
    (hnd : (sites.map (·.node.label)).Nodup) (h : collect (findingsAtSite u) sites = .ok r)
    {s : Site NodeId} (hs : s ∈ sites) :
    ∃ here, findingsAtSite u s = .ok here ∧
      r.failures.filter (·.node == s.node.label) = here.failures := by
  induction sites generalizing r with
  | nil => cases hs
  | cons site sites ih =>
      obtain ⟨first, hfirst, h⟩ := bind_eq_ok.mp h
      obtain ⟨rest, hrest, h⟩ := bind_eq_ok.mp h
      cases h
      obtain ⟨hnot, hnd⟩ := List.nodup_cons.mp hnd
      rw [Report.append, List.filter_append]
      rcases List.mem_cons.mp hs with rfl | hs
      · have hall : first.failures.filter (·.node == s.node.label) = first.failures :=
          List.filter_eq_self.mpr fun f hf => beq_iff_eq.mpr (node_of_failure hon hfirst f hf)
        have hnone : rest.failures.filter (·.node == s.node.label) = [] := by
          refine List.filter_eq_nil_iff.mpr fun f hf heq => hnot ?_
          have hmem := node_of_collect hon hrest f hf
          rwa [beq_iff_eq.mp heq] at hmem
        exact ⟨first, hfirst, by rw [hall, hnone, List.append_nil]⟩
      · have hnone : first.failures.filter (·.node == s.node.label) = [] := by
          refine List.filter_eq_nil_iff.mpr fun f hf heq => hnot ?_
          have hsame : site.node.label = s.node.label :=
            (node_of_failure hon hfirst f hf).symm.trans (beq_iff_eq.mp heq)
          exact List.mem_map.mpr ⟨s, hs, hsame.symm⟩
        rw [hnone, List.nil_append]
        exact ih hnd hrest hs

end Audit

end Foam
