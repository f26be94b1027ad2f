import Foam.Proofs.Arena.Growth
import Foam.Proofs.Arena.Reach
import Foam.Proofs.Arena.Step
import Foam.Proofs.Arena.Walks

/-!
# Freeing a tree and using its ids again

Freeing reads the children of a node and then gives its id back, so the ids pile up in front of
those that were vacant before. In a strict tree no node is met twice and none is missed: what has
piled up are the ids of the tree, each once. New nodes take them from there before any other id, and
no row is added meanwhile.
-/

namespace Foam.Arena

variable {a b c : Arena} {root : NodeId} {ids : List NodeId}

/-! ## The ids that become vacant -/

theorem WellFormed.mem_vacant_iff (hw : a.WellFormed) {x : NodeId} :
    x ∈ a.vacant ↔ x.index < a.capacity ∧ a.get? x = none := by
  constructor
  · exact fun h => ⟨hw.index_lt_of_vacant h, hw.get?_of_vacant h⟩
  · rintro ⟨hlt, hnone⟩
    have hdead : (a.get? x).isSome = (a.live[x.index]? == some true) := hw.aligned.isSome_get?
    rw [hnone, Array.getElem?_eq_getElem hlt] at hdead
    rw [hw.mem_vacant, Array.getElem?_eq_getElem hlt]
    simpa using hdead.symm

/-- Ids have become vacant in front of those that were, and no row has been added. -/
def Vacates (a b : Arena) : Prop := a.vacant <:+ b.vacant ∧ b.capacity = a.capacity

theorem Vacates.refl (a : Arena) : Vacates a a := ⟨List.suffix_rfl, rfl⟩

theorem Vacates.trans (h : Vacates a b) (h' : Vacates b c) : Vacates a c :=
  ⟨h.1.trans h'.1, h'.2.trans h.2⟩

theorem release_vacates {id : NodeId} (h : release id a = .ok ((), b)) : Vacates a b := by
  obtain ⟨-, rfl⟩ := release_eq_ok h
  exact ⟨List.suffix_cons id a.vacant, Array.size_setIfInBounds⟩

theorem forM_vacates {f : NodeId → ArenaM Unit}
    (hf : ∀ id a b, f id a = .ok ((), b) → Vacates a b) (h : ids.forM f a = .ok ((), b)) :
    Vacates a b :=
  Checked.forM_preserves (fun id _ c d hc hd => hc.trans (hf id c d hd)) (.refl a) h

theorem freeFrom_vacates {depth : Nat} {id : NodeId} (h : freeFrom depth id a = .ok ((), b)) :
    Vacates a b := by
  induction depth generalizing id a b with
  | zero => cases h
  | succ depth ih =>
      rw [freeFrom, Checked.get_bind] at h
      obtain ⟨children, -, h⟩ := Checked.run_lift_bind_eq_ok.mp h
      obtain ⟨⟨⟩, d, hd, h⟩ := Checked.run_bind_eq_ok.mp h
      exact (release_vacates hd).trans (forM_vacates (fun _ _ _ => ih) h)

theorem free_vacates {id : NodeId} (h : free id a = .ok ((), b)) : Vacates a b := by
  unfold free at h
  split at h
  · cases h
    exact .refl _
  · exact freeFrom_vacates h

/-- The ids that have become vacant are those of the nodes that have been cleared. -/
theorem Clears.exists_vacant (hw : a.WellFormed) (h : Clears a ids b) (hv : Vacates a b)
    (hnd : ids.Nodup) (hlive : ∀ x ∈ ids, ∃ n, a.get? x = some n) :
    ∃ zs, b.vacant = zs ++ a.vacant ∧ zs.Perm ids := by
  obtain ⟨⟨zs, hzs⟩, hcapacity⟩ := hv
  have hbnd : (zs ++ a.vacant).Nodup := hzs ▸ h.wellFormed.vacant_nodup
  obtain ⟨hzsnd, -, hdisj⟩ := List.nodup_append'.mp hbnd
  refine ⟨zs, hzs.symm, (List.perm_ext_iff_of_nodup hzsnd hnd).mpr fun x => ?_⟩
  constructor
  · intro hx
    have hmem : x ∈ b.vacant := hzs ▸ List.mem_append_left _ hx
    obtain ⟨hlt, hnone⟩ := h.wellFormed.mem_vacant_iff.mp hmem
    by_contra hout
    -- it would have been vacant before
    rw [h.kept x hout] at hnone
    exact hdisj hx (hw.mem_vacant_iff.mpr ⟨hcapacity ▸ hlt, hnone⟩)
  · intro hx
    obtain ⟨n, hn⟩ := hlive x hx
    have hmem : x ∈ b.vacant :=
      h.wellFormed.mem_vacant_iff.mpr ⟨hcapacity ▸ index_lt_of_get? hn, h.cleared x hx⟩
    rw [← hzs] at hmem
    refine (List.mem_append.mp hmem).resolve_right fun hold => ?_
    rw [hw.get?_of_vacant hold] at hn
    cases hn

/-! ## Making nodes again -/

/-- A way to make a new node. -/
inductive Allocation
  | alloc (tag : Tag) (count : Nat)
  | push (tag : Tag) (slots : List Slot)

namespace Allocation

def run : Allocation → ArenaM NodeId
  | alloc tag count => Arena.alloc tag count
  | push tag slots => Arena.push tag slots

/-- The number of slots is one that the layout admits, and slots that are given fit it. -/
def Admissible : Allocation → Prop
  | alloc tag count => tag.layout.accepts count = true
  | push tag slots => (Node.bare tag slots).Fits

instance : DecidablePred Admissible
  | alloc tag count => inferInstanceAs (Decidable (tag.layout.accepts count = true))
  | push tag slots => inferInstanceAs (Decidable (Node.bare tag slots).Fits)

theorem run_eq_insert {r : Allocation} (h : r.Admissible) :
    ∃ tag slots, r.run = insert tag slots := by
  cases r with
  | alloc tag count => exact ⟨_, _, if_pos h⟩
  | push tag slots => exact ⟨_, _, push_eq_insert h⟩

/-- A new node takes the id that became vacant last. -/
theorem run_vacant {r : Allocation} (h : r.Admissible) {id : NodeId} {rest : List NodeId}
    (hv : a.vacant = id :: rest) :
    ∃ b, r.run a = .ok (id, b) ∧ b.vacant = rest ∧ b.capacity = a.capacity := by
  obtain ⟨tag, slots, hrun⟩ := run_eq_insert h
  refine ⟨(a.write id.index (.bare tag slots)).occupy id rest, ?_, rfl, by simp⟩
  rw [hrun, insert_of_vacant hv]

/-- New nodes take vacant ids one after the other as long as there are any. -/
theorem mapM_run_vacant {rs : List Allocation} (h : ∀ r ∈ rs, r.Admissible)
    {zs rest : List NodeId} (hv : a.vacant = zs ++ rest) (hlen : rs.length = zs.length) :
    ∃ b, rs.mapM run a = .ok (zs, b) ∧ b.vacant = rest ∧ b.capacity = a.capacity := by
  induction rs generalizing a zs with
  | nil =>
      obtain rfl : zs = [] := List.length_eq_zero_iff.mp hlen.symm
      exact ⟨a, rfl, hv, rfl⟩
  | cons r rs ih =>
      obtain ⟨z, zs, rfl⟩ := List.exists_cons_of_length_eq_add_one hlen.symm
      obtain ⟨b, hb, hvb, hcb⟩ := run_vacant (h r List.mem_cons_self) hv
      obtain ⟨c, hc, hvc, hcc⟩ := ih (fun q hq => h q (List.mem_cons_of_mem _ hq)) hvb
        (Nat.succ.inj hlen)
      refine ⟨c, ?_, hvc, hcc.trans hcb⟩
      rw [List.mapM_cons, ArenaM.bind_ok hb]
      exact ArenaM.bind_ok hc

end Allocation

/-! ## Freeing a strict tree -/

/-- From `a` to `b` the tree under `root`, which has the nodes `ids`, is freed. -/
structure Freed (a : Arena) (root : NodeId) (ids : List NodeId) (b : Arena) : Prop where
  live : ∀ x, b.contains x = true ↔ a.contains x = true ∧ x ∉ ids
  kept : ∀ x, x ∉ ids → b.get? x = a.get? x
  liveCount : ∃ n, a.nodeCount root = .ok n ∧ b.liveCount + n = a.liveCount
  capacity : b.capacity = a.capacity
  /-- As many new nodes as have been freed have the ids of these. -/
  reused : ∀ rs : List Allocation, a.nodeCount root = .ok rs.length → (∀ r ∈ rs, r.Admissible) →
    ∃ new c, rs.mapM Allocation.run b = .ok (new, c) ∧ new.Perm ids ∧ c.capacity = b.capacity

/-- Freeing the root of a strict tree of live nodes releases the nodes of that tree and nothing else,
and their ids are the first to be used again. -/
theorem free_strictTree (hw : a.WellFormed) (htree : a.StrictTree root ids)
    (hlive : ∀ x ∈ ids, a.contains x = true) : ∃ b, free root a = .ok ((), b) ∧ Freed a root ids b := by
  have hnode : ∀ x ∈ ids, ∃ n, a.get? x = some n := fun x hx => hw.contains_iff.mp (hlive x hx)
  obtain ⟨t, ht, rfl, hnd, hperm⟩ := htree.exists_in hw hnode
  obtain ⟨b, hfree, hclears⟩ := free_clears ht hnd hw
  have hclears : Clears a ids b := hclears.perm hperm
  have hvacates : Vacates a b := free_vacates hfree
  have hsize : ids.length = t.size := by rw [← hperm.length_eq, Tree.length_labels]
  refine ⟨b, hfree, ⟨?live, hclears.kept, ?liveCount, hvacates.2, ?reused⟩⟩
  case live =>
    intro x
    rw [hclears.wellFormed.contains_iff, hw.contains_iff]
    by_cases hx : x ∈ ids
    · simp [hclears.cleared x hx, hx]
    · simp [hclears.kept x hx, hx]
  case liveCount =>
    refine ⟨t.size, nodeCount_eq ht, ?_⟩
    rw [← hsize, hclears.liveCount]
  case reused =>
    intro rs hcount hall
    obtain ⟨zs, hvacant, hzs⟩ := hclears.exists_vacant hw hvacates htree.nodup hnode
    have hlen : rs.length = zs.length := by
      rw [hzs.length_eq, hsize]
      exact Except.ok.inj (hcount.symm.trans (nodeCount_eq ht))
    obtain ⟨c, hrun, -, hcapacity⟩ := Allocation.mapM_run_vacant hall hvacant hlen
    exact ⟨zs, c, hrun, hzs, hcapacity⟩

/-- A sequence of two is freed beside a node that is kept, and three new nodes are made. -/
theorem free_strictTree_of_seq :
    let a : Arena := .ofRows [some (.bare .nil []),
      some (.bare .seq [.code ⟨2⟩, .code .null, .code ⟨4⟩]),
      some ⟨.sint, [.int 5], ⟨4, 9⟩, some 7, none⟩, none, some (.bare .nil [])] [⟨3⟩]
    let ids : List NodeId := [⟨1⟩, ⟨2⟩, ⟨4⟩]
    let rs : List Allocation := [.alloc .seq 2, .push .sint [.int 7], .alloc .nil 0]
    a.WellFormed ∧ a.StrictTree ⟨1⟩ ids ∧ (∀ x ∈ ids, a.contains x = true) ∧
      ∃ b, free ⟨1⟩ a = .ok ((), b) ∧ Freed a ⟨1⟩ ids b ∧
        ∃ new c, rs.mapM Allocation.run b = .ok (new, c) ∧ new.Perm ids ∧
          c.capacity = b.capacity := by
  intro a ids rs
  let t : Tree NodeId := .node ⟨1⟩ .seq [.child (.node ⟨2⟩ .sint [.leaf (.int 5)]),
    .leaf (.code .null), .child (.node ⟨4⟩ .nil [])]
  have hw : a.WellFormed := by decide
  have ht : t.In a := by decide
  have htree : a.StrictTree ⟨1⟩ ids := ht.strictTree (by decide)
  have hlive : ∀ x ∈ ids, a.contains x = true := by decide
  obtain ⟨b, hfree, hfreed⟩ := free_strictTree hw htree hlive
  exact ⟨hw, htree, hlive, b, hfree, hfreed, hfreed.reused rs (nodeCount_eq ht) (by decide)⟩

/-! ## Freeing with a stack -/

/-- Takes ids off a stack until it is empty. The node on top is released, and its children come onto
the stack, the last of them on top. -/
def freeStack : (steps : Nat) → (stack : List NodeId) → ArenaM Unit
  | _, [] => return ()
  | 0, _ :: _ => throw .cyclic
  | steps + 1, id :: stack => do
    let children ← (← get).children id
    release id
    freeStack steps (children.reverse ++ stack)

theorem freeStack_nil (steps : Nat) : freeStack steps [] a = .ok ((), a) := by
  cases steps <;> rfl

theorem freeStack_cons {id : NodeId} {n : Node} (hn : a.get? id = some n) (steps : Nat)
    (stack : List NodeId) :
    freeStack (steps + 1) (id :: stack) a =
      freeStack steps (n.children.reverse ++ stack) (a.vacate id) := by
  rw [freeStack, Checked.get_bind, children_of_get? hn]
  show (release id >>= fun _ => freeStack steps (n.children.reverse ++ stack)) a = _
  rw [ArenaM.bind_ok (release_of_get? hn)]

/-- What is not live can be freed neither way. -/
theorem free_of_not_live {id : NodeId} (hn : a.get? id = none) (bound : Nat) (stack : List NodeId) :
    freeStack (bound + 1) (id :: stack) a = .error (.notLive id) ∧
      freeFrom (bound + 1) id a = .error (.notLive id) := by
  have hchildren : a.children id = .error (.notLive id) := by
    simp only [children, node, hn]
    rfl
  constructor
  · rw [freeStack, Checked.get_bind, hchildren]
    rfl
  · rw [freeFrom, Checked.get_bind, hchildren]
    rfl

theorem count_live_vacate {id : NodeId} {n : Node} (hn : a.get? id = some n) :
    (a.vacate id).live.count true + 1 = a.live.count true := by
  have hlive : a.live[id.index]? = some true := (get?_eq_some.mp hn).1
  obtain ⟨hlt, htrue⟩ := Array.getElem?_eq_some_iff.mp hlive
  have hpos : 0 < a.live.count true := Array.count_pos_iff.mpr (htrue ▸ Array.getElem_mem hlt)
  show (a.live.setIfInBounds id.index false).count true + 1 = _
  rw [Array.setIfInBounds_def, dif_pos hlt, Array.count_set, htrue]
  simp
  omega

/-- The stack leads to the nodes in the order in which the recursion reaches them, as long as neither
stops short of the live ones. -/
theorem freeStack_eq_forM {depth steps : Nat} {stack : List NodeId}
    (hdepth : a.live.count true < depth) (hsteps : a.live.count true < steps) :
    freeStack steps stack a = stack.forM (freeFrom depth) a := by
  induction steps generalizing a depth stack with
  | zero => omega
  | succ steps ih =>
      obtain ⟨depth, rfl⟩ : ∃ d, depth = d + 1 := ⟨depth - 1, by omega⟩
      cases stack with
      | nil => exact freeStack_nil _
      | cons id stack =>
          have hcons : (id :: stack).forM (freeFrom (depth + 1)) a =
              (freeFrom (depth + 1) id a >>= fun p => stack.forM (freeFrom (depth + 1)) p.2) := rfl
          rw [hcons]
          cases hn : a.get? id with
          | none =>
              rw [(free_of_not_live hn steps stack).1, (free_of_not_live hn depth stack).2]
              rfl
          | some n =>
              have hcount := count_live_vacate hn
              have hlt : (a.vacate id).live.count true < depth + 1 := by omega
              have hlt' : (a.vacate id).live.count true < steps := by omega
              -- the children are freed by the induction, under either bound on the depth
              have hfree : freeFrom (depth + 1) id a =
                  n.children.reverse.forM (freeFrom (depth + 1)) (a.vacate id) := by
                rw [freeFrom_succ hn (release_of_get? hn), ← ih (by omega) hlt',
                  ← ih hlt hlt']
              have happend : (n.children.reverse ++ stack).forM (freeFrom (depth + 1)) =
                  n.children.reverse.forM (freeFrom (depth + 1)) >>= fun _ =>
                    stack.forM (freeFrom (depth + 1)) := List.forM_append
              rw [freeStack_cons hn, ih hlt hlt', happend, hfree]
              rfl

/-- Freeing is a walk with a stack that starts with the one id. -/
theorem free_eq_freeStack (a : Arena) (id : NodeId) :
    free id a = if id.isNull then .ok ((), a) else freeStack a.depthBound [id] a := by
  have hlive : a.live.count true < a.depthBound := Nat.lt_succ_of_le Array.count_le_size
  unfold free
  split
  · rfl
  · rw [Checked.get_bind, freeStack_eq_forM hlive hlive]
    show _ = (freeFrom a.depthBound id >>= fun _ => Pure.pure ()) a
    rw [bind_pure]

end Foam.Arena
