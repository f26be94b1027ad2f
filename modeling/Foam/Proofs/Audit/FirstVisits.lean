import Foam.Proofs.Arena.Reach
import Foam.Proofs.Audit.Sites

/-!
# First visits

A walk through a graph without a circle that goes into each node once. In the tree that the graph
unfolds to, a node with several parents has several places. The walk goes into the node at the first
of them (`first_of_mem_places`), where all that lies under the node comes first as well.

Every edge among the nodes that the walk went into led it either into the node at its end or to one
that it had seen. So the nodes that it came to again are counted by the edges (`Accounts`).
-/

namespace Foam

open scoped List

/-! ## Walks -/

/-- What a walk met: the places where it went into a node, those of the children before that of their
parent, and the nodes that it came to again. -/
structure Trace where
  places : List (Site NodeId)
  again : List NodeId

namespace Trace

/-- The nodes that the walk went into. -/
def ids (w : Trace) : List NodeId := w.places.map (·.node.label)

def nil : Trace := ⟨[], []⟩

def append (w v : Trace) : Trace := ⟨w.places ++ v.places, w.again ++ v.again⟩

/-- One walk after the other, each told what was seen before it. -/
def inTurn {α : Type} (walk : List NodeId → α → Trace) (seen : List NodeId) : List α → Trace
  | [] => .nil
  | x :: xs =>
    let first := walk seen x
    first.append (inTurn walk (first.ids ++ seen) xs)

theorem ids_append (w v : Trace) : (w.append v).ids = w.ids ++ v.ids := List.map_append

end Trace

namespace Tree

mutual
/-- The walk through the graph that unfolds to the tree, given what was seen before. -/
def walk (seen : List NodeId) (around : List (Tree NodeId)) : Tree NodeId → Trace
  | node id tag fs =>
    if id ∈ seen then ⟨[], [id]⟩
    else (walkAll (id :: seen) (node id tag fs :: around) fs).append ⟨[⟨node id tag fs, around⟩], []⟩
def walkAll (seen : List NodeId) (around : List (Tree NodeId)) : List (Field (Tree NodeId)) → Trace
  | [] => .nil
  | .leaf _ :: fs => walkAll seen around fs
  | .child t :: fs =>
    let first := t.walk seen around
    first.append (walkAll (first.ids ++ seen) around fs)
end

theorem walkAll_eq (seen : List NodeId) (around : List (Tree NodeId))
    (fs : List (Field (Tree NodeId))) :
    walkAll seen around fs = Trace.inTurn (walk · around) seen (subtrees fs) := by
  induction fs generalizing seen with
  | nil => rw [walkAll]; rfl
  | cons f fs ih => cases f <;> simp [walkAll, Trace.inTurn, ih]

theorem walk_node (seen : List NodeId) (around : List (Tree NodeId)) (id : NodeId) (tag : Tag)
    (fs : List (Field (Tree NodeId))) : (node id tag fs).walk seen around =
      if id ∈ seen then ⟨[], [id]⟩
      else (Trace.inTurn (walk · (node id tag fs :: around)) (id :: seen) (subtrees fs)).append
        ⟨[⟨node id tag fs, around⟩], []⟩ := by
  rw [walk, walkAll_eq]

mutual
/-- The places of a tree, that of a node before those of its children. -/
def preorder {α : Type} (around : List (Tree α)) : Tree α → List (Site α)
  | node l tag fs => ⟨node l tag fs, around⟩ :: preorderAll (node l tag fs :: around) fs
def preorderAll {α : Type} (around : List (Tree α)) : List (Field (Tree α)) → List (Site α)
  | [] => []
  | .leaf _ :: fs => preorderAll around fs
  | .child t :: fs => t.preorder around ++ preorderAll around fs
end

theorem preorderAll_eq {α : Type} (around : List (Tree α)) (fs : List (Field (Tree α))) :
    preorderAll around fs = (subtrees fs).flatMap (preorder around) := by
  induction fs with
  | nil => rw [preorderAll]; rfl
  | cons f fs ih => cases f <;> simp [preorderAll, ih]

@[simp] theorem preorder_node {α : Type} (around : List (Tree α)) (l : α) (tag : Tag)
    (fs : List (Field (Tree α))) : (node l tag fs).preorder around =
      ⟨node l tag fs, around⟩ :: (subtrees fs).flatMap (preorder (node l tag fs :: around)) := by
  rw [preorder, preorderAll_eq]

theorem preorder_labels {α : Type} (t : Tree α) (around : List (Tree α)) :
    (t.preorder around).map (·.node.label) = t.labels := by
  induction t generalizing around with
  | node l tag fs ih =>
      rw [preorder_node, labels_node, List.map_cons, List.map_flatMap]
      refine congrArg (l :: ·) (List.flatMap_congr fun t ht => ?_)
      exact ih t (mem_subtrees.mp ht) _

end Tree

/-! ## Edges -/

/-- The walk took the edges that end at `starts`, and those that leave the nodes it went into. -/
structure Trace.Accounts (a : Arena) (seen starts : List NodeId) (w : Trace) : Prop where
  nodup : w.ids.Nodup
  fresh : ∀ x ∈ w.ids, x ∉ seen
  again : ∀ x ∈ w.again, x ∈ w.ids ++ seen
  edges : (starts ++ a.edgeEnds w.ids).Perm (w.ids ++ w.again)

namespace Trace.Accounts

variable {a : Arena} {seen starts ends : List NodeId} {w v : Trace}

theorem nil : Accounts a seen [] .nil := ⟨.nil, nofun, nofun, .nil⟩

theorem append (h : Accounts a seen starts w) (h' : Accounts a (w.ids ++ seen) ends v) :
    Accounts a seen (starts ++ ends) (w.append v) := by
  refine ⟨?_, ?_, ?_, ?_⟩
  · rw [ids_append]
    refine List.nodup_append'.mpr ⟨h.nodup, h'.nodup, fun x hx hx' => ?_⟩
    exact h'.fresh x hx' (List.mem_append_left _ hx)
  · intro x hx hseen
    rw [ids_append] at hx
    rcases List.mem_append.mp hx with hx | hx
    · exact h.fresh x hx hseen
    · exact h'.fresh x hx (List.mem_append_right _ hseen)
  · intro x hx
    rw [ids_append]
    rcases List.mem_append.mp hx with hx | hx
    · have := h.again x hx
      simp only [List.mem_append] at this ⊢
      tauto
    · have := h'.again x hx
      simp only [List.mem_append] at this ⊢
      tauto
  · rw [ids_append, Arena.edgeEnds, List.flatMap_append]
    calc starts ++ ends ++ (a.edgeEnds w.ids ++ a.edgeEnds v.ids)
      _ ~ (starts ++ a.edgeEnds w.ids) ++ (ends ++ a.edgeEnds v.ids) := by
          simp only [List.append_assoc]
          exact List.perm_append_comm_assoc _ _ _ |>.append_left starts
      _ ~ (w.ids ++ w.again) ++ (v.ids ++ v.again) := h.edges.append h'.edges
      _ ~ w.ids ++ v.ids ++ (w.again ++ v.again) := by
          simp only [List.append_assoc]
          exact List.perm_append_comm_assoc _ _ _ |>.append_left w.ids

theorem inTurn {α : Type} {walk : List NodeId → α → Trace} {start : α → NodeId} {xs : List α}
    (h : ∀ x ∈ xs, ∀ seen, Accounts a seen [start x] (walk seen x)) :
    Accounts a seen (xs.map start) (.inTurn walk seen xs) := by
  induction xs generalizing seen with
  | nil => exact nil
  | cons x xs ih =>
      exact (h x List.mem_cons_self seen).append (ih fun y hy => h y (List.mem_cons_of_mem _ hy))

/-- The node at the end of an edge that was taken was seen. -/
theorem start_seen (h : Accounts a seen starts w) {x : NodeId} (hx : x ∈ starts) :
    x ∈ w.ids ++ seen := by
  have hmem : x ∈ w.ids ++ w.again := h.edges.subset (List.mem_append_left _ hx)
  rcases List.mem_append.mp hmem with hmem | hmem
  · exact List.mem_append_left _ hmem
  · exact h.again x hmem

end Trace.Accounts

namespace Tree

variable {a : Arena} {t : Tree NodeId} {seen inside : List NodeId} {around : List (Tree NodeId)}

theorem In.walk_accounts (ht : t.In a) :
    Trace.Accounts a seen [t.label] (t.walk seen around) := by
  induction ht generalizing seen around with
  | @node id tag fs here below ih =>
      have ht : (node id tag fs).In a := .node here below
      obtain ⟨n, hn, -⟩ := ht.get?
      rw [walk_node]
      split
      · next hseen =>
          refine ⟨.nil, nofun, fun x hx => ?_, .refl _⟩
          rw [List.mem_singleton.mp hx]
          exact List.mem_append_right _ hseen
      · next hseen =>
          have hbelow : Trace.Accounts a (id :: seen) ((subtrees fs).map label)
              (.inTurn (walk · (node id tag fs :: around)) (id :: seen) (subtrees fs)) :=
            .inTurn fun t hmem _ => ih t (mem_subtrees.mp hmem)
          generalize Trace.inTurn _ _ _ = w at hbelow ⊢
          have hids : (w.append ⟨[⟨node id tag fs, around⟩], []⟩).ids = w.ids ++ [id] :=
            Trace.ids_append _ _
          have hagain : (w.append ⟨[⟨node id tag fs, around⟩], []⟩).again = w.again :=
            List.append_nil _
          have hroot : id ∉ w.ids := fun hmem => hbelow.fresh id hmem List.mem_cons_self
          refine ⟨?_, ?_, ?_, ?_⟩
          · rw [hids]
            exact List.nodup_append'.mpr ⟨hbelow.nodup, List.nodup_singleton id,
              List.disjoint_singleton.mpr hroot⟩
          · intro x hx hmem
            rw [hids] at hx
            rcases List.mem_append.mp hx with hx | hx
            · exact hbelow.fresh x hx (List.mem_cons_of_mem _ hmem)
            · exact hseen (List.mem_singleton.mp hx ▸ hmem)
          · intro x hx
            rw [hids, List.append_assoc]
            exact hbelow.again x (hagain ▸ hx)
          · have hends : a.edgeEnds (w.ids ++ [id]) = a.edgeEnds w.ids ++ (subtrees fs).map label := by
              rw [Arena.edgeEnds, List.flatMap_append, List.flatMap_singleton, hn]
              exact congrArg (_ ++ ·) (ht.children hn)
            rw [hids, hagain, hends]
            calc [id] ++ (a.edgeEnds w.ids ++ (subtrees fs).map label)
              _ ~ [id] ++ ((subtrees fs).map label ++ a.edgeEnds w.ids) :=
                  List.perm_append_comm.append_left _
              _ ~ [id] ++ (w.ids ++ w.again) := hbelow.edges.append_left _
              _ ~ w.ids ++ [id] ++ w.again := by
                  rw [List.append_assoc]
                  exact List.perm_append_comm_assoc _ _ _

end Tree

/-! ## What was seen of a tree -/

/-- The children of what was seen were seen too, except those of nodes that the walk is still
inside. -/
def Arena.Closed (a : Arena) (inside seen : List NodeId) : Prop :=
  ∀ x ∈ seen, x ∈ inside ∨ ∀ n, a.get? x = some n → ∀ y ∈ n.children, y ∈ seen

theorem Trace.Accounts.closed {a : Arena} {seen starts inside : List NodeId} {w : Trace}
    (h : w.Accounts a seen starts) (hclosed : a.Closed inside seen) :
    a.Closed inside (w.ids ++ seen) := by
  intro x hx
  rcases List.mem_append.mp hx with hx | hx
  · refine .inr fun n hn y hy => ?_
    have hedge : y ∈ a.edgeEnds w.ids :=
      List.mem_flatMap.mpr ⟨x, hx, by rw [hn]; exact hy⟩
    have hmem : y ∈ w.ids ++ w.again := h.edges.subset (List.mem_append_right _ hedge)
    rcases List.mem_append.mp hmem with hmem | hmem
    · exact List.mem_append_left _ hmem
    · exact h.again y hmem
  · refine (hclosed x hx).imp_right fun hx n hn y hy => ?_
    exact List.mem_append_right _ (hx n hn y hy)

namespace Tree

variable {a : Arena} {t : Tree NodeId} {seen inside : List NodeId} {around : List (Tree NodeId)}

/-- A tree whose root was seen was seen as a whole. -/
theorem In.labels_seen (ht : t.In a) (hclosed : a.Closed inside seen) (hseen : t.label ∈ seen)
    (hinside : ∀ x ∈ t.labels, x ∉ inside) : ∀ x ∈ t.labels, x ∈ seen := by
  induction ht with
  | @node id tag fs here below ih =>
      have ht : (node id tag fs).In a := .node here below
      obtain ⟨n, hn, -⟩ := ht.get?
      intro x hx
      rw [labels_node] at hx
      rcases List.mem_cons.mp hx with rfl | hx
      · exact hseen
      · obtain ⟨c, hc, hx⟩ := List.mem_flatMap.mp hx
        have hchild : .child c ∈ fs := mem_subtrees.mp hc
        have hsame := (hclosed id hseen).resolve_left (hinside id (label_mem_labels _)) n hn
        rw [ht.children hn] at hsame
        refine ih c hchild (hsame _ (List.mem_map_of_mem hc)) (fun y hy => ?_) x hx
        exact hinside y (labels_subset hchild hy)

theorem In.label_notMem_child {id : NodeId} {tag : Tag} {fs : List (Field (Tree NodeId))}
    (ht : (node id tag fs).In a) {c : Tree NodeId} (hc : .child c ∈ fs) : id ∉ c.labels := by
  intro hmem
  obtain ⟨n, hn, -⟩ := ht.get?
  have hchild : c.label ∈ n.children := by
    rw [ht.children hn]
    exact List.mem_map_of_mem (mem_subtrees.mpr hc)
  exact ht.acyclic id n (.refl id) hn c.label hchild ((ht.child hc).reaches hmem)

theorem find?_preorder_eq_none {x : NodeId} (h : x ∉ t.labels) :
    (t.preorder around).find? (·.node.label == x) = none := by
  rw [← preorder_labels t around] at h
  refine List.find?_eq_none.mpr fun s hs heq => h ?_
  exact List.mem_map.mpr ⟨s, hs, beq_iff_eq.mp heq⟩

/-- Of trees walked in turn, each place where a node was gone into is the first of the node. -/
theorem first_of_mem_inTurn {ts : List (Tree NodeId)} {s : Site NodeId}
    (h : ∀ t ∈ ts, ∀ seen, a.Closed inside seen → s ∈ (t.walk seen around).places →
      (t.preorder around).find? (·.node.label == s.node.label) = some s)
    (hts : ∀ t ∈ ts, t.In a) (hclosed : a.Closed inside seen)
    (hinside : ∀ t ∈ ts, ∀ x ∈ t.labels, x ∉ inside)
    (hs : s ∈ (Trace.inTurn (walk · around) seen ts).places) :
    (ts.flatMap (preorder around)).find? (·.node.label == s.node.label) = some s := by
  induction ts generalizing seen with
  | nil => cases hs
  | cons t ts ih =>
      have htop : t.In a := hts t List.mem_cons_self
      have hrest : ∀ u ∈ ts, u.In a := fun u hu => hts u (List.mem_cons_of_mem _ hu)
      have hfirst : (t.walk seen around).Accounts a seen [t.label] := htop.walk_accounts
      have hclosed' := hfirst.closed hclosed
      rw [List.flatMap_cons, List.find?_append]
      rcases List.mem_append.mp hs with hs | hs
      · rw [h t List.mem_cons_self seen hclosed hs]
        rfl
      · -- what is gone into later was not seen before, and so is not in this tree
        have hlater : Trace.Accounts a ((t.walk seen around).ids ++ seen) (ts.map label)
            (.inTurn (walk · around) ((t.walk seen around).ids ++ seen) ts) :=
          .inTurn fun u hu _ => (hrest u hu).walk_accounts
        have hfresh := hlater.fresh _ (List.mem_map_of_mem hs)
        have hnone : s.node.label ∉ t.labels := fun hmem => hfresh
          (htop.labels_seen hclosed' (hfirst.start_seen List.mem_cons_self)
            (hinside t List.mem_cons_self) _ hmem)
        rw [find?_preorder_eq_none hnone, Option.none_or]
        exact ih (fun u hu => h u (List.mem_cons_of_mem _ hu)) hrest hclosed'
          (fun u hu => hinside u (List.mem_cons_of_mem _ hu)) hs

theorem In.first_of_mem_places (ht : t.In a) (hclosed : a.Closed inside seen)
    (hinside : ∀ x ∈ t.labels, x ∉ inside) {s : Site NodeId}
    (hs : s ∈ (t.walk seen around).places) :
    (t.preorder around).find? (·.node.label == s.node.label) = some s := by
  induction ht generalizing seen inside around with
  | @node id tag fs here below ih =>
      have ht : (node id tag fs).In a := .node here below
      rw [walk_node] at hs
      split at hs
      · cases hs
      · rw [preorder_node, List.find?_cons]
        rcases List.mem_append.mp hs with hs | hs
        · have hbelow : Trace.Accounts a (id :: seen) ((subtrees fs).map label)
              (.inTurn (walk · (node id tag fs :: around)) (id :: seen) (subtrees fs)) :=
            .inTurn fun u hu _ => In.walk_accounts (below u (mem_subtrees.mp hu))
          have hne : id ≠ s.node.label := fun heq =>
            hbelow.fresh _ (List.mem_map_of_mem hs) (heq ▸ List.mem_cons_self)
          have hbeq : (id == s.node.label) = false := beq_false_of_ne hne
          show (match id == s.node.label with | true => _ | false => _) = _
          rw [hbeq]
          have hdisj : ∀ t, .child t ∈ fs → ∀ x ∈ t.labels, x ∉ id :: inside := by
            intro t hchild x hx hin
            rcases List.mem_cons.mp hin with rfl | hin
            · exact ht.label_notMem_child hchild hx
            · exact hinside x (labels_subset hchild hx) hin
          have hclosed' : a.Closed (id :: inside) (id :: seen) := by
            intro x hx
            rcases List.mem_cons.mp hx with rfl | hx
            · exact .inl List.mem_cons_self
            · refine (hclosed x hx).imp (List.mem_cons_of_mem _) fun hx n hn y hy => ?_
              exact List.mem_cons_of_mem _ (hx n hn y hy)
          refine first_of_mem_inTurn ?_ (fun t hmem => below t (mem_subtrees.mp hmem)) hclosed'
            (fun t hmem => hdisj t (mem_subtrees.mp hmem)) hs
          intro t hmem seen hclosed hs
          have hchild : .child t ∈ fs := mem_subtrees.mp hmem
          exact ih t hchild hclosed (hdisj t hchild) hs
        · obtain rfl := List.mem_singleton.mp hs
          rw [beq_self_eq_true]

/-- A walk that has seen nothing before goes into every node. -/
theorem In.mem_walk_ids (ht : t.In a) (x : NodeId) :
    x ∈ (t.walk [] around).ids ↔ a.Reaches t.label x := by
  have hedges : (t.walk [] around).Accounts a [] [t.label] := ht.walk_accounts
  have hclosed : a.Closed [] [] := nofun
  have hnone : ∀ y ∈ t.labels, y ∉ ([] : List NodeId) := fun _ _ => List.not_mem_nil
  refine ⟨fun hx => ht.reaches ?_, fun hx => ?_⟩
  · obtain ⟨s, hs, rfl⟩ := List.mem_map.mp hx
    rw [← preorder_labels t around]
    exact List.mem_map_of_mem (List.mem_of_find?_eq_some (ht.first_of_mem_places hclosed hnone hs))
  · have hseen := ht.labels_seen (hedges.closed hclosed) (hedges.start_seen List.mem_cons_self) hnone
      x (ht.mem_labels hx)
    rwa [List.append_nil] at hseen

end Tree

/-! ## Nodes met again -/

namespace Trace.Accounts

variable {a : Arena} {root : NodeId} {w : Trace}

theorem count_again (h : w.Accounts a [] [root]) (x : NodeId) :
    [root].count x + (a.edgeEnds w.ids).count x = w.ids.count x + w.again.count x := by
  rw [← List.count_append, ← List.count_append]
  exact h.edges.count_eq x

/-- Nothing is met again exactly if what is reached is a tree. -/
theorem again_eq_nil_iff (h : w.Accounts a [] [root])
    (hreached : ∀ x, x ∈ w.ids ↔ a.Reaches root x) :
    w.again = [] ↔ ∃ ids, a.StrictTree root ids := by
  constructor
  · intro hnil
    have hedges := h.edges
    rw [hnil, List.append_nil] at hedges
    exact ⟨w.ids, h.nodup, fun x => (hreached x).symm, hedges⟩
  · rintro ⟨ids, hnd, hall, hedges⟩
    have hperm : ids.Perm w.ids := (List.perm_ext_iff_of_nodup hnd h.nodup).mpr fun x =>
      (hall x).symm.trans (hreached x).symm
    have hends : (a.edgeEnds ids).Perm (a.edgeEnds w.ids) := hperm.flatMap_right _
    have htaken := h.edges.length_eq
    have htree := hedges.length_eq
    rw [List.length_append, List.length_append, List.length_singleton, ← hends.length_eq,
      ← hperm.length_eq] at htaken
    rw [List.length_cons] at htree
    exact List.eq_nil_of_length_eq_zero (by omega)

end Trace.Accounts

end Foam
