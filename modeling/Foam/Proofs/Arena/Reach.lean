import Foam.Proofs.Tree
import Mathlib.Data.Fintype.EquivFin
import Mathlib.Data.List.Pairwise

/-!
# Reachable nodes

What is reached from a node over children that are present. Where a tree stands without sharing a
node, exactly its labels are reached from its root, and every one but the root over one edge.

A graph in which no path comes back to where it was is the graph of a tree in which a node may be met
several times (`Acyclic.exists_in`). If one edge ends at each node but the root, the tree meets each
node once (`StrictTree.exists_in`).
-/

namespace Foam

namespace Arena

/-- `y` is reached from `x` over children that are present. -/
inductive Reaches (a : Arena) : (x y : NodeId) → Prop
  | refl (x : NodeId) : Reaches a x x
  | step {x y z : NodeId} {n : Node} :
      a.get? x = some n → y ∈ n.children → Reaches a y z → Reaches a x z

/-- The ends of the edges that leave the nodes `ids`, one for each edge. -/
def edgeEnds (a : Arena) (ids : List NodeId) : List NodeId :=
  ids.flatMap fun x => ((a.get? x).map Node.children).getD []

/-- The nodes `ids` are those reached from `root`. One edge among them ends at each but the root, and
none at the root. -/
structure StrictTree (a : Arena) (root : NodeId) (ids : List NodeId) : Prop where
  nodup : ids.Nodup
  reaches : ∀ x, a.Reaches root x ↔ x ∈ ids
  edges : (root :: a.edgeEnds ids).Perm ids

end Arena

variable {a : Arena} {t : Tree NodeId}

namespace Tree

theorem In.mem_labels (h : t.In a) {x : NodeId} (hx : a.Reaches t.label x) : x ∈ t.labels := by
  generalize hy : t.label = y at hx
  induction hx generalizing t with
  | refl y => exact hy ▸ label_mem_labels t
  | @step y c z n hg hc _ ih =>
      obtain ⟨id, tag, fs⟩ := t
      obtain rfl : id = y := hy
      rw [h.children hg] at hc
      obtain ⟨u, hu, rfl⟩ := List.mem_map.mp hc
      have hchild : .child u ∈ fs := mem_subtrees.mp hu
      exact labels_subset hchild (ih (h.child hchild) rfl)

theorem In.reaches (h : t.In a) {x : NodeId} (hx : x ∈ t.labels) : a.Reaches t.label x := by
  induction h with
  | @node id tag fs here below ih =>
      rw [labels_node] at hx
      rcases List.mem_cons.mp hx with rfl | hx
      · exact .refl _
      · obtain ⟨u, hu, hx⟩ := List.mem_flatMap.mp hx
        have ht : (Tree.node id tag fs).In a := .node here below
        obtain ⟨n, hg, -⟩ := ht.get?
        have hmem : u.label ∈ n.children := by
          rw [ht.children hg]
          exact List.mem_map_of_mem hu
        exact .step hg hmem (ih u (mem_subtrees.mp hu) hx)

theorem In.edges_perm (h : t.In a) : (t.label :: a.edgeEnds t.labels).Perm t.labels := by
  induction h with
  | @node id tag fs here below ih =>
      have ht : (Tree.node id tag fs).In a := .node here below
      obtain ⟨n, hg, -⟩ := ht.get?
      have hsplit : a.edgeEnds (Tree.node id tag fs).labels = (subtrees fs).map label ++
          (subtrees fs).flatMap fun t => a.edgeEnds t.labels := by
        rw [labels_node, Arena.edgeEnds, List.flatMap_cons, hg, List.flatMap_assoc]
        exact congrArg (· ++ _) (ht.children hg)
      rw [hsplit, labels_node]
      -- the edge to a child is put before the edges in it
      refine List.Perm.cons id ((List.map_append_flatMap_perm _ _ _).trans ?_)
      exact List.Perm.flatMap_left _ fun u hu => ih u (mem_subtrees.mp hu)

/-- A tree without a repeated node is a tree in the graph of nodes. -/
theorem In.strictTree (h : t.In a) (hnd : t.labels.Nodup) : a.StrictTree t.label t.labels :=
  ⟨hnd, fun _ => ⟨h.mem_labels, h.reaches⟩, h.edges_perm⟩

end Tree

/-! ## Graphs without a circle -/

theorem Tree.In.exists_of_mem_labels (h : t.In a) {x : NodeId} (hx : x ∈ t.labels) :
    ∃ u : Tree NodeId, u.In a ∧ u.label = x ∧ u.height ≤ t.height := by
  induction h with
  | @node id tag fs here below ih =>
      rw [labels_node] at hx
      rcases List.mem_cons.mp hx with rfl | hx
      · exact ⟨_, .node here below, rfl, Nat.le_refl _⟩
      · obtain ⟨c, hc, hx⟩ := List.mem_flatMap.mp hx
        have hchild : .child c ∈ fs := mem_subtrees.mp hc
        obtain ⟨u, hu, hlabel, hle⟩ := ih c hchild hx
        exact ⟨u, hu, hlabel, hle.trans (Nat.le_of_lt (height_lt id tag hchild))⟩

namespace Arena

theorem Reaches.trans {x y z : NodeId} (h : a.Reaches x y) (h' : a.Reaches y z) : a.Reaches x z := by
  induction h with
  | refl _ => exact h'
  | step hg hc _ ih => exact .step hg hc (ih h')

/-- No path from `root` on comes back to where it was. -/
def Acyclic (a : Arena) (root : NodeId) : Prop :=
  ∀ x n, a.Reaches root x → a.get? x = some n → ∀ y ∈ n.children, ¬ a.Reaches y x

/-- No edge leads back to where all paths begin. -/
theorem Acyclic.root_notMem_edgeEnds {root : NodeId} {ids : List NodeId} (h : a.Acyclic root)
    (hids : ∀ x ∈ ids, a.Reaches root x) : root ∉ a.edgeEnds ids := by
  intro hmem
  obtain ⟨x, hx, hroot⟩ := List.mem_flatMap.mp hmem
  cases hn : a.get? x with
  | none =>
      rw [hn] at hroot
      cases hroot
  | some n =>
      rw [hn] at hroot
      exact h x n (hids x hx) hn root hroot (hids x hx)

/-- `y` lies below `x`, which is reached from `root`. -/
def Below (a : Arena) (root y x : NodeId) : Prop :=
  a.Reaches root x ∧ ∃ n, a.get? x = some n ∧ ∃ c ∈ n.children, a.Reaches c y

end Arena

instance : Finite NodeId :=
  Finite.of_injective (fun x => (⟨x.index, x.raw.toNat_lt⟩ : Fin (2 ^ 32))) fun _ _ h =>
    NodeId.index_injective (Fin.mk.inj h)

namespace Arena

theorem Acyclic.wellFounded {root : NodeId} (h : a.Acyclic root) : WellFounded (a.Below root) := by
  have htrans : IsTrans NodeId (a.Below root) := by
    refine ⟨fun z y x hzy hyx => ?_⟩
    obtain ⟨-, m, hm, c, hc, hz⟩ := hzy
    obtain ⟨hx, n, hn, d, hd, hy⟩ := hyx
    exact ⟨hx, n, hn, d, hd, hy.trans (.step hm hc hz)⟩
  have hirrefl : Std.Irrefl (a.Below root) := by
    refine ⟨fun x hxx => ?_⟩
    obtain ⟨hx, n, hn, c, hc, hback⟩ := hxx
    exact h x n hx hn c hc hback
  exact Finite.wellFounded_of_trans_of_irrefl _

/-- Slots whose children are roots of trees are the slots of fields. -/
theorem exists_fields {ss : List Slot}
    (h : ∀ c ∈ ss.filterMap Slot.child?, ∃ t : Tree NodeId, t.In a ∧ t.label = c) :
    ∃ fs : List (Field (Tree NodeId)), ss = fs.map Field.slot ∧
      (∀ s, .leaf s ∈ fs → s.child? = none) ∧ ∀ t, .child t ∈ fs → t.In a := by
  induction ss with
  | nil => exact ⟨[], rfl, nofun, nofun⟩
  | cons s ss ih =>
      cases hs : s.child? with
      | none =>
          rw [List.filterMap_cons_none hs] at h
          obtain ⟨fs, rfl, hleaf, hchild⟩ := ih h
          refine ⟨.leaf s :: fs, rfl, ?_, ?_⟩
          · intro r hr
            rcases List.mem_cons.mp hr with hr | hr
            · cases hr
              exact hs
            · exact hleaf r hr
          · intro t ht
            exact hchild t ((List.mem_cons.mp ht).resolve_left nofun)
      | some c =>
          rw [List.filterMap_cons_some hs] at h
          obtain ⟨t, ht, rfl⟩ := h c List.mem_cons_self
          obtain ⟨fs, rfl, hleaf, hchild⟩ := ih fun d hd => h d (List.mem_cons_of_mem _ hd)
          obtain ⟨rfl, -⟩ := Slot.mem_child?.mp hs
          refine ⟨.child t :: fs, rfl, ?_, ?_⟩
          · intro r hr
            exact hleaf r ((List.mem_cons.mp hr).resolve_left nofun)
          · intro u hu
            rcases List.mem_cons.mp hu with hu | hu
            · cases hu
              exact ht
            · exact hchild u hu

/-- A node whose children are roots of trees is the root of one. -/
theorem exists_in_of_children (hw : a.WellFormed) {x : NodeId} {n : Node} (hn : a.get? x = some n)
    (h : ∀ c ∈ n.children, ∃ t : Tree NodeId, t.In a ∧ t.label = c) :
    ∃ t : Tree NodeId, t.In a ∧ t.label = x := by
  obtain ⟨fs, hslots, hleaf, hchild⟩ := exists_fields h
  exact ⟨_, Tree.in_of_eq (hw.not_null (index_lt_of_get? hn)) hn rfl hslots hleaf hchild, rfl⟩

/-- A node of a graph without a circle stands for a tree, given that no id in the graph is dead. -/
theorem Acyclic.exists_in {root : NodeId} (h : a.Acyclic root) (hw : a.WellFormed)
    (hlive : ∀ x, a.Reaches root x → ∃ n, a.get? x = some n) :
    ∃ t : Tree NodeId, t.In a ∧ t.label = root := by
  suffices hall : ∀ x, a.Reaches root x → ∃ t : Tree NodeId, t.In a ∧ t.label = x from
    hall root (.refl root)
  intro x
  induction x using h.wellFounded.induction with
  | _ x ih =>
      intro hx
      obtain ⟨n, hn⟩ := hlive x hx
      refine exists_in_of_children hw hn fun c hc => ?_
      have hreach : a.Reaches root c := hx.trans (.step hn hc (.refl c))
      exact ih c ⟨hx, n, hn, c, hc, .refl c⟩ hreach

end Arena

/-- No path in a tree comes back to where it was. -/
theorem Tree.In.acyclic (h : t.In a) : a.Acyclic t.label := by
  intro x n hx hn y hy hback
  obtain ⟨u, hu, rfl, -⟩ := h.exists_of_mem_labels (h.mem_labels hx)
  obtain ⟨id, tag, fs⟩ := u
  rw [hu.children hn] at hy
  obtain ⟨c, hc, rfl⟩ := List.mem_map.mp hy
  have hchild : .child c ∈ fs := mem_subtrees.mp hc
  have hin : c.In a := hu.child hchild
  obtain ⟨v, hv, hlabel, hle⟩ := hin.exists_of_mem_labels (hin.mem_labels hback)
  -- the node would be as high as one of its own children
  rw [hv.unique hu hlabel] at hle
  exact absurd (height_lt id tag hchild) (Nat.not_lt.mpr hle)

/-! ## Strict trees -/

namespace Arena

/-- A property of what is reached passes along the last edge of a path. -/
theorem Reaches.tail_induct {x : NodeId} {P : (z : NodeId) → a.Reaches x z → Prop}
    (start : P x (.refl x))
    (edge : ∀ y n z (hy : a.Reaches x y) (hn : a.get? y = some n) (hz : z ∈ n.children),
      P y hy → P z (hy.trans (.step hn hz (.refl z)))) {z : NodeId} (h : a.Reaches x z) : P z h := by
  induction h with
  | refl x => exact start
  | @step x y z n hn hy hyz ih =>
      have hxy : a.Reaches x y := .step hn hy (.refl y)
      refine @ih (fun w hw => P w (hxy.trans hw)) ?_ ?_
      · exact edge x n y (.refl x) hn hy start
      · intro w m v hyw hm hv hP
        exact edge w m v (hxy.trans hyw) hm hv hP

/-- A path that goes anywhere has a last edge. -/
theorem Reaches.eq_or_last {x z : NodeId} (h : a.Reaches x z) :
    x = z ∨ ∃ y n, a.Reaches x y ∧ a.get? y = some n ∧ z ∈ n.children := by
  induction h using Reaches.tail_induct with
  | start => exact .inl rfl
  | edge y n z hy hn hz _ => exact .inr ⟨y, n, hy, hn, hz⟩

theorem edgeEnds_cons {x : NodeId} {n : Node} (hn : a.get? x = some n) (ids : List NodeId) :
    a.edgeEnds (x :: ids) = n.children ++ a.edgeEnds ids := by
  rw [edgeEnds, List.flatMap_cons, hn]
  rfl

theorem mem_edgeEnds {x y : NodeId} {n : Node} {ids : List NodeId} (hx : x ∈ ids)
    (hn : a.get? x = some n) (hy : y ∈ n.children) : y ∈ a.edgeEnds ids := by
  refine List.mem_flatMap.mpr ⟨x, hx, ?_⟩
  rwa [hn]

/-- What is reached stays among nodes that no edge leaves. -/
theorem Reaches.mem_of_edgeEnds {x y : NodeId} {ids : List NodeId} (h : a.Reaches x y)
    (hends : ∀ z ∈ a.edgeEnds ids, z ∈ ids) (hx : x ∈ ids) : y ∈ ids := by
  induction h with
  | refl x => exact hx
  | step hn hc _ ih => exact ih (hends _ (mem_edgeEnds hx hn hc))

namespace StrictTree

variable {root x y z : NodeId} {ids : List NodeId} {m n : Node}

theorem edges_nodup (h : a.StrictTree root ids) : (root :: a.edgeEnds ids).Nodup :=
  h.edges.nodup_iff.mpr h.nodup

theorem ne_root (h : a.StrictTree root ids) (hx : x ∈ ids) (hn : a.get? x = some n)
    (hy : y ∈ n.children) : y ≠ root := by
  rintro rfl
  exact (List.nodup_cons.mp h.edges_nodup).1 (mem_edgeEnds hx hn hy)

theorem children_nodup (h : a.StrictTree root ids) (hx : x ∈ ids) (hn : a.get? x = some n) :
    n.children.Nodup := by
  have hnd := (List.nodup_flatMap.mp (List.nodup_cons.mp h.edges_nodup).2).1 x hx
  rwa [hn] at hnd

/-- No node is a child of two. -/
theorem parent_unique (h : a.StrictTree root ids) (hx : x ∈ ids) (hy : y ∈ ids)
    (hm : a.get? x = some m) (hn : a.get? y = some n) (hzx : z ∈ m.children)
    (hzy : z ∈ n.children) : x = y := by
  by_contra hne
  have hpairs := (List.nodup_flatMap.mp (List.nodup_cons.mp h.edges_nodup).2).2
  have hsymm : Std.Symm (Function.onFun List.Disjoint fun x =>
      ((a.get? x).map Node.children).getD []) := ⟨fun _ _ hd => hd.symm⟩
  have hdisj : List.Disjoint (((a.get? x).map Node.children).getD [])
      (((a.get? y).map Node.children).getD []) := hpairs.forall hx hy hne
  rw [hm, hn] at hdisj
  exact hdisj hzx hzy

theorem acyclic (h : a.StrictTree root ids) : a.Acyclic root := by
  intro x n hx
  -- a circle through a node goes through the one node before it, and so on up to the root
  induction hx using Reaches.tail_induct generalizing n with
  | start =>
      intro hn y hy hback
      have hroot : root ∈ ids := (h.reaches root).mp (.refl root)
      rcases hback.eq_or_last with rfl | ⟨w, k, hw, hk, hmem⟩
      · exact h.ne_root hroot hn hy rfl
      · have hwids : w ∈ ids := (h.reaches w).mp (.step hn hy hw)
        exact h.ne_root hwids hk hmem rfl
  | edge p k z hp hk hz ih =>
      intro hn y hy hback
      have hpids : p ∈ ids := (h.reaches p).mp hp
      have hrootz : a.Reaches root z := hp.trans (.step hk hz (.refl z))
      rcases hback.eq_or_last with rfl | ⟨w, l, hw, hl, hmem⟩
      · obtain rfl : p = y := h.parent_unique hpids ((h.reaches y).mp hrootz) hk hn hz hy
        exact ih k hk p hz (.refl p)
      · have hwids : w ∈ ids := (h.reaches w).mp (hrootz.trans (.step hn hy hw))
        obtain rfl : p = w := h.parent_unique hpids hwids hk hl hz hmem
        exact ih k hk z hz (.step hn hy hw)

/-- A child is met as often as its parent is. -/
theorem count_edgeEnds (h : a.StrictTree root ids) {l : List NodeId} (hl : l ⊆ ids)
    (hlive : ∀ w ∈ ids, ∃ k, a.get? w = some k) (hx : x ∈ ids) (hn : a.get? x = some n)
    (hz : z ∈ n.children) : (a.edgeEnds l).count z = l.count x := by
  induction l with
  | nil => rfl
  | cons y l ih =>
      obtain ⟨hy, hl⟩ := List.cons_subset.mp hl
      obtain ⟨k, hk⟩ := hlive y hy
      rw [edgeEnds_cons hk, List.count_append, ih hl, List.count_cons, Nat.add_comm]
      congr 1
      by_cases hyx : y = x
      · subst hyx
        obtain rfl : n = k := Option.some.inj (hn.symm.trans hk)
        rw [beq_self_eq_true, if_pos rfl]
        exact List.count_eq_one_of_mem (h.children_nodup hx hn) hz
      · rw [if_neg (by simpa using hyx)]
        exact List.count_eq_zero_of_not_mem fun hmem =>
          hyx (h.parent_unique hy hx hk hn hmem hz)

/-- A strict tree of live nodes is the graph of a tree that meets each of its nodes once. -/
theorem exists_in (h : a.StrictTree root ids) (hw : a.WellFormed)
    (hlive : ∀ x ∈ ids, ∃ n, a.get? x = some n) :
    ∃ t : Tree NodeId, t.In a ∧ t.label = root ∧ t.labels.Nodup ∧ t.labels.Perm ids := by
  obtain ⟨t, ht, rfl⟩ := h.acyclic.exists_in hw fun x hx => hlive x ((h.reaches x).mp hx)
  have hmem : ∀ x, x ∈ t.labels ↔ x ∈ ids := fun x =>
    ⟨fun hx => (h.reaches x).mp (ht.reaches hx), fun hx => ht.mem_labels ((h.reaches x).mpr hx)⟩
  have hsub : t.labels ⊆ ids := fun x hx => (hmem x).mp hx
  have hcount : ∀ z, a.Reaches t.label z → t.labels.count z ≤ 1 := by
    intro z hz
    rw [← ht.edges_perm.count_eq, List.count_cons]
    induction hz using Reaches.tail_induct with
    | start =>
        have hout : t.label ∉ a.edgeEnds t.labels := h.acyclic.root_notMem_edgeEnds fun _ => ht.reaches
        rw [List.count_eq_zero_of_not_mem hout]
        exact Nat.le_of_eq (by simp)
    | edge p n z hp hn hz ih =>
        have hpids : p ∈ ids := (h.reaches p).mp hp
        have hne : (t.label == z) = false := beq_false_of_ne (h.ne_root hpids hn hz).symm
        rw [h.count_edgeEnds hsub hlive hpids hn hz, hne]
        rwa [← List.count_cons, ht.edges_perm.count_eq] at ih
  have hnd : t.labels.Nodup := by
    rw [List.nodup_iff_count_le_one]
    intro z
    by_cases hz : z ∈ t.labels
    · exact hcount z (ht.reaches hz)
    · rw [List.count_eq_zero_of_not_mem hz]
      exact Nat.zero_le 1
  exact ⟨t, ht, rfl, hnd, (List.perm_ext_iff_of_nodup hnd h.nodup).mpr hmem⟩

end StrictTree

end Arena

end Foam
