import Foam.Proofs.Arena.Free
import Foam.Proofs.Arena.Operations

/-!
# Running out of ids

An id is a number of 32 bits, and the last of these numbers is that of the null id. A new node is
refused only when no number is left, so the null id is given out too, to the node that is made when
all other ids are taken and none is vacant. Freeing the null id does nothing, so that node is never
released, and since the test for live nodes does not find it, it is lost (`run_of_drawn`).
-/

namespace Foam.Arena

variable {a b : Arena} {id : NodeId} {tag : Tag} {slots : List Slot}

theorem insert_of_full (ha : a.Aligned) (hv : a.vacant = []) (hlt : idLimit < a.capacity) :
    insert tag slots a = .error (.full a.capacity) := by
  rw [insert, hv, ← ha.tags]
  exact if_neg (Nat.not_le_of_lt (ha.tags.symm ▸ hlt))

/-! ## Making nodes and freeing trees -/

/-- The arena comes of making nodes and freeing trees, in any order. -/
inductive Drawn : Arena → Prop
  | empty : Drawn .empty
  | make {a b : Arena} {id : NodeId} {r : Allocation} :
      Drawn a → r.run a = .ok (id, b) → Drawn b
  | free {a b : Arena} {id : NodeId} : Drawn a → free id a = .ok ((), b) → Drawn b

/-- The null id is not vacant: it has no row, or a node for good. -/
structure Sealed (a : Arena) : Prop where
  aligned : a.Aligned
  vacant_nodup : a.vacant.Nodup
  empty_of_vacant : ∀ x ∈ a.vacant, a.live[x.index]? = some false
  vacant_not_null : ∀ x ∈ a.vacant, x.isNull = false
  capacity_le : a.capacity ≤ idLimit + 1
  null_live : idLimit < a.capacity → ∃ n, a.get? .null = some n

namespace Sealed

theorem empty : Sealed .empty where
  aligned := empty_aligned
  vacant_nodup := List.nodup_nil
  empty_of_vacant := List.forall_mem_nil _
  vacant_not_null := List.forall_mem_nil _
  capacity_le := Nat.zero_le _
  null_live h := absurd h (Nat.not_lt_zero _)

theorem index_lt (h : Sealed a) (hid : id ∈ a.vacant) : id.index < a.capacity :=
  (Array.getElem?_eq_some_iff.mp (h.empty_of_vacant id hid)).1

theorem insert (h : Sealed a) (hins : Arena.insert tag slots a = .ok (id, b)) : Sealed b := by
  cases hv : a.vacant with
  | cons x rest =>
      cases (insert_of_vacant hv).symm.trans hins
      have hmem : id ∈ a.vacant := hv ▸ List.mem_cons_self
      have hrest : ∀ y ∈ rest, y ∈ a.vacant := fun y hy => hv ▸ List.mem_cons_of_mem _ hy
      obtain ⟨hout, hnodup⟩ := List.nodup_cons.mp (hv ▸ h.vacant_nodup)
      refine ⟨(h.aligned.write _ _).occupy _ _, hnodup, ?_,
        fun y hy => h.vacant_not_null y (hrest y hy), ?_, ?_⟩
      · intro y hy
        have hne : id.index ≠ y.index := NodeId.index_ne (ne_of_mem_of_not_mem hy hout)
        show (a.live.setIfInBounds id.index true)[y.index]? = some false
        rw [Array.getElem?_setIfInBounds, if_neg hne]
        exact h.empty_of_vacant y (hrest y hy)
      · rw [capacity_occupy, capacity_write]
        exact h.capacity_le
      · intro hlt
        rw [capacity_occupy, capacity_write] at hlt
        rw [get?_occupy h.aligned (h.index_lt hmem), if_neg (null_ne (h.vacant_not_null id hmem))]
        exact h.null_live hlt
  | nil =>
      by_cases hle : a.capacity ≤ idLimit
      · cases (insert_of_none_vacant h.aligned hv hle).symm.trans hins
        refine ⟨h.aligned.append _, h.vacant_nodup, fun x hx => ?_, h.vacant_not_null, ?_, ?_⟩
        · change x ∈ a.vacant at hx
          rw [hv] at hx
          cases hx
        · rw [capacity_append]
          exact Nat.succ_le_succ hle
        · -- the new row is that of the null id
          intro hlt
          rw [capacity_append] at hlt
          have hsize : a.capacity = idLimit := Nat.le_antisymm hle (Nat.le_of_lt_succ hlt)
          refine ⟨.bare tag slots, ?_⟩
          rw [get?_append h.aligned hle, hsize]
          exact if_pos rfl
      · cases (insert_of_full h.aligned hv (Nat.lt_of_not_le hle)).symm.trans hins

theorem run (h : Sealed a) {r : Allocation} (hr : r.run a = .ok (id, b)) : Sealed b := by
  cases r with
  | alloc tag count => exact h.insert (alloc_eq_ok hr).2
  | push tag slots => exact h.insert (push_eq_ok hr).2

theorem release (h : Sealed a) (hid : id.isNull = false)
    (hrelease : Arena.release id a = .ok ((), b)) : Sealed b := by
  obtain ⟨⟨n, hn⟩, rfl⟩ := release_eq_ok hrelease
  have hlt : id.index < a.live.size := index_lt_of_get? hn
  have hout : id ∉ a.vacant := by
    intro hmem
    rw [get?_of_not_live (h.empty_of_vacant id hmem)] at hn
    cases hn
  refine ⟨h.aligned.vacate id, List.nodup_cons.mpr ⟨hout, h.vacant_nodup⟩, ?_, ?_, ?_, ?_⟩
  · intro y hy
    show (a.live.setIfInBounds id.index false)[y.index]? = some false
    rw [Array.getElem?_setIfInBounds]
    rcases List.mem_cons.mp hy with rfl | hy
    · rw [if_pos rfl, if_pos hlt]
    · rw [if_neg (NodeId.index_ne (ne_of_mem_of_not_mem hy hout))]
      exact h.empty_of_vacant y hy
  · exact List.forall_mem_cons.mpr ⟨hid, h.vacant_not_null⟩
  · rw [capacity_vacate]
    exact h.capacity_le
  · intro hlimit
    rw [capacity_vacate] at hlimit
    rw [get?_vacate, if_neg (null_ne hid)]
    exact h.null_live hlimit

/-- A walk that frees comes only to children that are present, so never to the null id. -/
theorem freeFrom {depth : Nat} (h : Sealed a) (hid : id.isNull = false)
    (hfree : Arena.freeFrom depth id a = .ok ((), b)) : Sealed b := by
  induction depth generalizing id a b with
  | zero => cases hfree
  | succ depth ih =>
      rw [Arena.freeFrom, Checked.get_bind] at hfree
      obtain ⟨children, hchildren, hfree⟩ := Checked.run_lift_bind_eq_ok.mp hfree
      obtain ⟨⟨⟩, c, hrelease, hfree⟩ := Checked.run_bind_eq_ok.mp hfree
      obtain ⟨⟨n, hn⟩, -⟩ := release_eq_ok hrelease
      obtain rfl : n.children = children :=
        Except.ok.inj ((children_of_get? hn).symm.trans hchildren)
      refine Checked.forM_preserves (fun x hx s t hs ht => ih hs ?_ ht) (h.release hid hrelease) hfree
      exact (Node.mem_children.mp (List.mem_reverse.mp hx)).2

theorem free (h : Sealed a) (hfree : Arena.free id a = .ok ((), b)) : Sealed b := by
  unfold Arena.free at hfree
  split at hfree
  · cases hfree
    exact h
  · next hid => exact h.freeFrom (Bool.eq_false_of_not_eq_true hid) hfree

end Sealed

theorem Drawn.sealed (h : Drawn a) : Sealed a := by
  induction h with
  | empty => exact .empty
  | make _ hr ih => exact ih.run hr
  | free _ hfree ih => exact ih.free hfree

/-! ## What becomes of a new node -/

namespace Allocation

variable {r : Allocation}

/-- A node is made that is live under an id other than the null id. -/
def Succeeds (r : Allocation) (a : Arena) : Prop :=
  ∃ id b, r.run a = .ok (id, b) ∧ id.isNull = false ∧ b.contains id = true

/-- A node is made under the null id, where the test for live nodes does not find it. -/
def TakesNull (r : Allocation) (a : Arena) : Prop :=
  ∃ n b, r.run a = .ok (.null, b) ∧ b.get? .null = some n ∧ b.contains .null = false

/-- The node is refused because there are too many. -/
def Refused (r : Allocation) (a : Arena) : Prop :=
  ∃ m, r.run a = .error m ∧ m.message? =
    some ("too many FOAM nodes: " ++ toString a.capacity ++ " exceeds u32::MAX")

theorem succeeds_of_vacant (ha : Sealed a) (hr : r.Admissible) (hv : a.vacant ≠ []) :
    r.Succeeds a := by
  obtain ⟨tag, slots, hrun⟩ := run_eq_insert hr
  obtain ⟨id, rest, hv⟩ := List.exists_cons_of_ne_nil hv
  have hmem : id ∈ a.vacant := hv ▸ List.mem_cons_self
  have hid : id.isNull = false := ha.vacant_not_null id hmem
  refine ⟨id, _, by rw [hrun, insert_of_vacant hv], hid, ?_⟩
  rw [((ha.aligned.write _ _).occupy _ _).contains_eq, hid,
    get?_occupy ha.aligned (ha.index_lt hmem), if_pos rfl]
  rfl

theorem succeeds_of_capacity_lt (ha : Sealed a) (hr : r.Admissible) (hv : a.vacant = [])
    (hlt : a.capacity < idLimit) : r.Succeeds a := by
  obtain ⟨tag, slots, hrun⟩ := run_eq_insert hr
  have hle : a.capacity ≤ idLimit := Nat.le_of_lt hlt
  have hid : NodeId.isNull ⟨UInt32.ofNat a.capacity⟩ = false :=
    not_null_of_index_lt ((index_ofNat hle).trans_lt hlt)
  refine ⟨_, _, by rw [hrun, insert_of_none_vacant ha.aligned hv hle], hid, ?_⟩
  rw [(ha.aligned.append _).contains_eq, hid, get?_append ha.aligned hle, if_pos rfl]
  rfl

theorem takesNull_of_capacity_eq (ha : Sealed a) (hr : r.Admissible) (hv : a.vacant = [])
    (hsize : a.capacity = idLimit) : r.TakesNull a := by
  obtain ⟨tag, slots, hrun⟩ := run_eq_insert hr
  have hle : a.capacity ≤ idLimit := Nat.le_of_eq hsize
  have hnull : NodeId.null = ⟨UInt32.ofNat a.capacity⟩ :=
    congrArg (NodeId.mk ∘ UInt32.ofNat) hsize.symm
  refine ⟨.bare tag slots, _, ?_, by rw [get?_append ha.aligned hle, if_pos hnull], rfl⟩
  rw [hrun, insert_of_none_vacant ha.aligned hv hle, hnull]

theorem refused_of_full (ha : Sealed a) (hr : r.Admissible) (hv : a.vacant = [])
    (hlt : idLimit < a.capacity) : r.Refused a := by
  obtain ⟨tag, slots, hrun⟩ := run_eq_insert hr
  exact ⟨.full a.capacity, by rw [hrun, insert_of_full ha.aligned hv hlt], rfl⟩

theorem TakesNull.not_succeeds_or_refused (h : r.TakesNull a) : ¬(r.Succeeds a ∨ r.Refused a) := by
  obtain ⟨n, b, hrun, -, -⟩ := h
  rintro (⟨id, c, hrun', hid, -⟩ | ⟨m, hrun', -⟩)
  · cases hrun.symm.trans hrun'
    cases hid
  · cases hrun.symm.trans hrun'

end Allocation

/-- Whatever nodes have been made and trees freed, a new node whose slots fit its tag is live under
an id other than the null id as long as an id is vacant or there are fewer rows than such ids. With
just as many rows, all taken, the new node has the null id. With one more, which is as many as there
can be, it is refused, and as long as there are no more than that, no node has the null id. -/
theorem run_of_drawn (ha : Drawn a) {r : Allocation} (hr : r.Admissible) :
    (a.vacant ≠ [] ∨ a.capacity < idLimit → r.Succeeds a) ∧
      (a.vacant = [] → a.capacity = idLimit → r.TakesNull a) ∧
      (a.vacant = [] → idLimit < a.capacity → r.Refused a) ∧
      a.capacity ≤ idLimit + 1 ∧ ((∃ n, a.get? .null = some n) ↔ idLimit < a.capacity) := by
  have hsealed : Sealed a := ha.sealed
  refine ⟨?_, Allocation.takesNull_of_capacity_eq hsealed hr,
    Allocation.refused_of_full hsealed hr, hsealed.capacity_le, ?_, hsealed.null_live⟩
  · intro h
    by_cases hv : a.vacant = []
    · exact Allocation.succeeds_of_capacity_lt hsealed hr hv (h.resolve_left (not_not_intro hv))
    · exact Allocation.succeeds_of_vacant hsealed hr hv
  · rintro ⟨n, hn⟩
    exact index_lt_of_get? hn

/-- A node is freed beside one that is kept. The next new node takes its id, the one after that a new
one. -/
theorem run_of_drawn_after_free :
    let a : Arena := .ofRows [some (.bare .nil []), none] [⟨1⟩]
    let b : Arena := .ofRows [some (.bare .nil []), some (.bare .sint [.int 7])] []
    let r : Allocation := .push .sint [.int 7]
    Drawn a ∧ r.Admissible ∧ a.vacant ≠ [] ∧ r.Succeeds a ∧
      r.run a = .ok (⟨1⟩, b) ∧ Drawn b ∧ b.capacity < idLimit ∧ r.Succeeds b ∧
      b.get? .null = none := by
  intro a b r
  have ha : Drawn a := by
    have hfirst : Drawn (.ofRows [some (.bare .nil [])] []) := .make (r := .alloc .nil 0) .empty rfl
    have hsecond : Drawn (.ofRows [some (.bare .nil []), some (.bare .nil [])] []) :=
      .make (r := .push .nil []) hfirst rfl
    have hfree : free ⟨1⟩ (.ofRows [some (.bare .nil []), some (.bare .nil [])] []) = .ok ((), a) := rfl
    exact .free hsecond hfree
  have hr : r.Admissible := by decide
  have hrun : r.run a = .ok (⟨1⟩, b) := rfl
  have hb : Drawn b := .make ha hrun
  have hvacant : a.vacant ≠ [] := by decide
  have hlt : b.capacity < idLimit := by decide
  obtain ⟨hsucceeds, -, -, -, -⟩ := run_of_drawn ha hr
  obtain ⟨hsucceeds', -, -, -, hnull⟩ := run_of_drawn hb hr
  refine ⟨ha, hr, hvacant, hsucceeds (.inl hvacant), hrun, hb, hlt, hsucceeds' (.inr hlt), ?_⟩
  rw [Option.eq_none_iff_forall_ne_some]
  intro n hn
  exact Nat.lt_asymm hlt (hnull.mp ⟨n, hn⟩)

/-! ## All ids taken -/

/-- So many nodes without slots, and no vacant id. -/
def filled (n : Nat) : Arena where
  tags := .replicate n .nil
  slotLists := .replicate n []
  spans := .replicate n .unknown
  symbols := .replicate n none
  optInfos := .replicate n none
  live := .replicate n true
  vacant := []

theorem capacity_filled (n : Nat) : (filled n).capacity = n := Array.size_replicate

theorem filled_succ (n : Nat) : filled (n + 1) = (filled n).append (.bare .nil []) := by
  simp only [filled, append, Array.replicate_succ]
  rfl

theorem drawn_filled {n : Nat} (hn : n ≤ idLimit + 1) : Drawn (filled n) := by
  induction n with
  | zero => exact .empty
  | succ n ih =>
      have hle : (filled n).capacity ≤ idLimit := by
        rw [capacity_filled]
        exact Nat.le_of_succ_le_succ hn
      have hdrawn : Drawn (filled n) := ih (Nat.le_of_succ_le hn)
      rw [filled_succ]
      exact .make (r := .alloc .nil 0) hdrawn (insert_of_none_vacant hdrawn.sealed.aligned rfl hle)

/-- When every other id is taken, a new node is neither refused nor live under an id other than the
null id, and after it a node has the null id. -/
theorem not_run_avoids_null :
    (¬∀ (a : Arena) (r : Allocation), Drawn a → r.Admissible → r.Succeeds a ∨ r.Refused a) ∧
      ¬∀ a, Drawn a → a.get? .null = none := by
  have hr : (Allocation.alloc .nil 0).Admissible := rfl
  constructor
  · intro h
    have hdrawn : Drawn (filled idLimit) := drawn_filled (Nat.le_succ _)
    have htakes := Allocation.takesNull_of_capacity_eq hdrawn.sealed hr rfl (capacity_filled idLimit)
    exact htakes.not_succeeds_or_refused (h _ _ hdrawn hr)
  · intro h
    have hdrawn : Drawn (filled (idLimit + 1)) := drawn_filled (Nat.le_refl _)
    obtain ⟨n, hn⟩ := hdrawn.sealed.null_live (capacity_filled _ ▸ Nat.lt_succ_self _)
    cases (h _ hdrawn).symm.trans hn

end Foam.Arena
