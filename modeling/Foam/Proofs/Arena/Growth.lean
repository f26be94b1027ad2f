import Foam.Arena.Walk
import Foam.Proofs.Tree

/-!
# Growing by trees and shrinking back

`Grows a ts b` says that `b` is `a` with the trees `ts` added in nodes of their own, `Clears a ids b`
that `b` is `a` without the nodes `ids`. Growth is built up node by node as a reader builds a tree:
the trees of the children, which stand at the end, become one tree when their parent is made.
Freeing a tree clears its nodes and no others, so freeing what was grown restores the arena.
-/

namespace Foam

theorem ArenaM.bind_ok {α β : Type} {x : ArenaM α} {f : α → ArenaM β} {a b : Arena} {v : α}
    (h : x a = .ok (v, b)) : (x >>= f) a = f v b := by
  show (x a >>= fun p => f p.1 p.2) = f v b
  rw [h]
  rfl

namespace Arena

variable {a b c : Arena} {ids xs ys : List NodeId} {ts us : List (Tree NodeId)}

/-! ## Clearing -/

/-- From `a` to `b` the nodes `ids` are released and no others. -/
structure Clears (a : Arena) (ids : List NodeId) (b : Arena) : Prop where
  cleared : ∀ x ∈ ids, b.get? x = none
  kept : ∀ x, x ∉ ids → b.get? x = a.get? x
  wellFormed : b.WellFormed
  liveCount : b.liveCount + ids.length = a.liveCount

namespace Clears

theorem nil (hw : a.WellFormed) : Clears a [] a :=
  ⟨fun _ h => absurd h List.not_mem_nil, fun _ _ => rfl, hw, rfl⟩

theorem of_removes {id : NodeId} (h : Removes a id b) : Clears a [id] b where
  cleared x hx := by
    rw [List.mem_singleton.mp hx]
    exact h.here
  kept x hx := h.elsewhere x (by simpa using hx)
  wellFormed := h.wellFormed
  liveCount := h.liveCount

theorem append (h : Clears a xs b) (h' : Clears b ys c) : Clears a (xs ++ ys) c where
  cleared x hx := by
    by_cases hy : x ∈ ys
    · exact h'.cleared x hy
    · rw [h'.kept x hy]
      exact h.cleared x ((List.mem_append.mp hx).resolve_right hy)
  kept x hx := by
    rw [List.mem_append, not_or] at hx
    rw [h'.kept x hx.2, h.kept x hx.1]
  wellFormed := h'.wellFormed
  liveCount := by
    rw [← h.liveCount, ← h'.liveCount, List.length_append]
    omega

theorem perm (h : Clears a xs b) (hp : xs.Perm ys) : Clears a ys b where
  cleared x hx := h.cleared x (hp.mem_iff.mpr hx)
  kept x hx := h.kept x fun hx' => hx (hp.mem_iff.mp hx')
  wellFormed := h.wellFormed
  liveCount := by rw [← hp.length_eq, h.liveCount]

theorem in_of_disjoint (h : Clears a xs b) {t : Tree NodeId} (ht : t.In a)
    (hdisj : ∀ x ∈ t.labels, x ∉ xs) : t.In b := by
  apply ht.congr
  intro x hx
  exact h.kept x (hdisj x hx)

end Clears

/-! ## Freeing clears -/

/-- Freeing one tree after the other clears them all if each is cleared by itself. -/
theorem forM_clears {f : NodeId → ArenaM Unit}
    (hf : ∀ t ∈ ts, ∀ a : Arena, a.WellFormed → t.In a →
      ∃ b, f t.label a = .ok ((), b) ∧ Clears a t.labels b)
    (hw : a.WellFormed) (hin : ∀ t ∈ ts, t.In a) (hnd : (ts.flatMap Tree.labels).Nodup) :
    ∃ b, (ts.map Tree.label).forM f a = .ok ((), b) ∧ Clears a (ts.flatMap Tree.labels) b := by
  induction ts generalizing a with
  | nil => exact ⟨a, rfl, .nil hw⟩
  | cons t ts ih =>
      rw [List.flatMap_cons] at hnd ⊢
      obtain ⟨-, hnd', hdisj⟩ := List.nodup_append'.mp hnd
      obtain ⟨b, hb, hclear⟩ := hf t List.mem_cons_self a hw (hin t List.mem_cons_self)
      -- the others share no node with the tree that is gone, so they still stand
      have hin' : ∀ u ∈ ts, u.In b := by
        intro u hu
        apply hclear.in_of_disjoint (hin u (List.mem_cons_of_mem _ hu))
        intro x hx hxt
        exact hdisj hxt (List.mem_flatMap.mpr ⟨u, hu, hx⟩)
      obtain ⟨c, hc, hclear'⟩ := ih (fun u hu => hf u (List.mem_cons_of_mem _ hu))
        hclear.wellFormed hin' hnd'
      refine ⟨c, ?_, hclear.append hclear'⟩
      show (f t.label a >>= fun p => (ts.map Tree.label).forM f p.2) = _
      rw [hb]
      exact hc

theorem freeFrom_succ {id : NodeId} {n : Node} {depth : Nat} (hg : a.get? id = some n)
    (hb : release id a = .ok ((), b)) :
    freeFrom (depth + 1) id a = n.children.reverse.forM (freeFrom depth) b := by
  have hrun : freeFrom (depth + 1) id a = (a.children id >>= fun ids =>
      release id a >>= fun p => ids.reverse.forM (freeFrom depth) p.2) := by
    cases h : a.children id <;>
      simp [freeFrom, bind, StateT.bind, h, get, getThe, MonadStateOf.get, StateT.get, pure,
        Except.pure, Except.bind, liftM, monadLift, MonadLift.monadLift, StateT.lift]
  have hchildren : a.children id = .ok n.children := by
    simp only [Arena.children, node, hg]
    rfl
  rw [hrun, hchildren, hb]
  rfl

theorem freeFrom_clears {t : Tree NodeId} (ht : t.In a) (hnd : t.labels.Nodup)
    (hw : a.WellFormed) {depth : Nat} (hd : t.height ≤ depth) :
    ∃ b, freeFrom depth t.label a = .ok ((), b) ∧ Clears a t.labels b := by
  induction t generalizing a depth with
  | node id tag fs ih =>
      obtain ⟨depth, rfl⟩ := Nat.exists_eq_add_of_lt (Nat.lt_of_lt_of_le (Tree.height_pos _) hd)
      rw [Nat.zero_add] at hd ⊢
      obtain ⟨n, hg, -, -⟩ := ht.get?
      obtain ⟨b, hb, hremoves⟩ := release_removes hw hg
      rw [Tree.labels_node] at hnd
      obtain ⟨hid, hnd'⟩ := List.nodup_cons.mp hnd
      -- The children are freed last first; in which order does not matter to what is cleared.
      have hperm : ((Tree.subtrees fs).reverse.flatMap Tree.labels).Perm
          ((Tree.subtrees fs).flatMap Tree.labels) := (List.reverse_perm _).flatMap_right _
      have hin : ∀ t ∈ (Tree.subtrees fs).reverse, t.In b := by
        intro t hmem
        have hmem : t ∈ Tree.subtrees fs := List.mem_reverse.mp hmem
        refine (ht.child (Tree.mem_subtrees.mp hmem)).congr fun x hx => hremoves.elsewhere x ?_
        rintro rfl
        exact hid (List.mem_flatMap.mpr ⟨t, hmem, hx⟩)
      have hfree : ∀ t ∈ (Tree.subtrees fs).reverse, ∀ a : Arena, a.WellFormed → t.In a →
          ∃ b, freeFrom depth t.label a = .ok ((), b) ∧ Clears a t.labels b := by
        intro t hmem a hw ht'
        have hmem : t ∈ Tree.subtrees fs := List.mem_reverse.mp hmem
        have hchild : .child t ∈ fs := Tree.mem_subtrees.mp hmem
        refine ih t hchild ht' ?_ hw ?_
        · exact (List.nodup_flatMap.mp hnd').1 t hmem
        · have := Tree.height_lt id tag hchild
          omega
      obtain ⟨c, hc, hclears⟩ := forM_clears hfree hremoves.wellFormed hin
        (hperm.nodup_iff.mpr hnd')
      refine ⟨c, ?_, ?_⟩
      · rw [List.map_reverse] at hc
        show freeFrom (depth + 1) id a = _
        rw [freeFrom_succ hg hb, ht.children hg]
        exact hc
      · rw [Tree.labels_node]
        exact ((Clears.of_removes hremoves).append hclears).perm (hperm.cons id)

/-- Freeing the root of a tree that shares no node releases the nodes of that tree. -/
theorem free_clears {t : Tree NodeId} (ht : t.In a) (hnd : t.labels.Nodup) (hw : a.WellFormed) :
    ∃ b, free t.label a = .ok ((), b) ∧ Clears a t.labels b := by
  have hheight : t.height ≤ a.depthBound :=
    Nat.le_trans ht.height_le_capacity (Nat.le_succ _)
  obtain ⟨b, hb, hclears⟩ := freeFrom_clears ht hnd hw hheight
  refine ⟨b, ?_, hclears⟩
  unfold free
  rw [ht.label_not_null]
  exact hb

theorem freeSlots_clears {fs : List (Field (Tree NodeId))} (hw : a.WellFormed)
    (hleaf : ∀ s, .leaf s ∈ fs → s.child? = none) (hin : ∀ t ∈ Tree.subtrees fs, t.In a)
    (hnd : ((Tree.subtrees fs).flatMap Tree.labels).Nodup) :
    ∃ b, freeSlots (fs.map Field.slot) a = .ok ((), b) ∧
      Clears a ((Tree.subtrees fs).flatMap Tree.labels) b := by
  induction fs generalizing a with
  | nil => exact ⟨a, rfl, .nil hw⟩
  | cons f fs ih =>
      have hleaf' : ∀ s, .leaf s ∈ fs → s.child? = none := by
        intro s hs
        exact hleaf s (List.mem_cons_of_mem _ hs)
      cases f with
      | leaf s =>
          obtain ⟨b, hb, hclears⟩ := ih hw hleaf' hin hnd
          refine ⟨b, ?_, hclears⟩
          have hs : s.child? = none := hleaf s List.mem_cons_self
          rw [← hb]
          cases s with
          | code c =>
              -- an id that is no child is null, and freeing null does nothing
              have hc : c.isNull = true := by
                cases hn : c.isNull with
                | true => rfl
                | false => simp [Slot.child?, hn] at hs
              have hfree : free c a = .ok ((), a) := by
                unfold free
                rw [hc]
                rfl
              show (free c a >>= fun p => freeSlots (fs.map Field.slot) p.2) = _
              rw [hfree]
              rfl
          | _ => rfl
      | child t =>
          rw [Tree.subtrees_child, List.flatMap_cons] at hnd ⊢
          obtain ⟨hndt, hnd', hdisj⟩ := List.nodup_append'.mp hnd
          obtain ⟨b, hb, hclears⟩ := free_clears (hin t List.mem_cons_self) hndt hw
          have hin' : ∀ u ∈ Tree.subtrees fs, u.In b := by
            intro u hu
            apply hclears.in_of_disjoint (hin u (List.mem_cons_of_mem _ hu))
            intro x hx hxt
            exact hdisj hxt (List.mem_flatMap.mpr ⟨u, hu, hx⟩)
          obtain ⟨c, hc, hclears'⟩ := ih hclears.wellFormed hleaf' hin' hnd'
          refine ⟨c, ?_, hclears.append hclears'⟩
          show (free t.label a >>= fun p => freeSlots (fs.map Field.slot) p.2) = _
          rw [hb]
          exact hc

/-! ## Growing -/

/-- `b` has the nodes that `a` has, under the same ids. Which ids come next may differ. -/
structure Restores (a b : Arena) : Prop where
  get? : ∀ x, b.get? x = a.get? x
  wellFormed : b.WellFormed
  liveCount : b.liveCount = a.liveCount

theorem Restores.refl (hw : a.WellFormed) : Restores a a := ⟨fun _ => rfl, hw, rfl⟩

/-- From `a` to `b` the trees `ts` are made, in nodes that share nothing with each other or `a`. -/
structure Grows (a : Arena) (ts : List (Tree NodeId)) (b : Arena) : Prop where
  placed : ∀ t ∈ ts, t.In b
  nodup : (ts.flatMap Tree.labels).Nodup
  fresh : ∀ x ∈ ts.flatMap Tree.labels, a.get? x = none
  kept : ∀ x, x ∉ ts.flatMap Tree.labels → b.get? x = a.get? x
  wellFormed : b.WellFormed
  liveCount : b.liveCount = a.liveCount + (ts.flatMap Tree.labels).length

namespace Grows

theorem nil (hw : a.WellFormed) : Grows a [] a :=
  ⟨fun _ h => absurd h List.not_mem_nil, List.nodup_nil, fun _ h => absurd h List.not_mem_nil,
    fun _ _ => rfl, hw, rfl⟩

theorem live (h : Grows a ts b) {x : NodeId} (hx : x ∈ ts.flatMap Tree.labels) :
    ∃ n, b.get? x = some n := by
  obtain ⟨t, ht, hx⟩ := List.mem_flatMap.mp hx
  exact (Tree.mem_labels_live (h.placed t ht) hx).2

theorem append (h : Grows a ts b) (h' : Grows b us c) : Grows a (ts ++ us) c := by
  -- what is made later was dead before, unlike what had been made by then
  have hdisj : ∀ x ∈ ts.flatMap Tree.labels, x ∉ us.flatMap Tree.labels := by
    intro x hx hx'
    obtain ⟨n, hn⟩ := h.live hx
    rw [h'.fresh x hx'] at hn
    cases hn
  constructor
  · intro t ht
    rcases List.mem_append.mp ht with ht | ht
    · exact (h.placed t ht).congr fun x hx =>
        h'.kept x (hdisj x (List.mem_flatMap.mpr ⟨t, ht, hx⟩))
    · exact h'.placed t ht
  · rw [List.flatMap_append]
    exact List.nodup_append'.mpr ⟨h.nodup, h'.nodup, fun x hx hx' => hdisj x hx hx'⟩
  · intro x hx
    rw [List.flatMap_append, List.mem_append] at hx
    by_cases hts : x ∈ ts.flatMap Tree.labels
    · exact h.fresh x hts
    · rw [← h.kept x hts]
      exact h'.fresh x (hx.resolve_left hts)
  · intro x hx
    rw [List.flatMap_append, List.mem_append, not_or] at hx
    rw [h'.kept x hx.2, h.kept x hx.1]
  · exact h'.wellFormed
  · rw [h'.liveCount, h.liveCount, List.flatMap_append, List.length_append, Nat.add_assoc]

theorem get?_eq_some (h : Grows a ts b) {x : NodeId} {n : Node} (hx : a.get? x = some n) :
    b.get? x = some n := by
  rw [h.kept x, hx]
  intro hmem
  rw [h.fresh x hmem] at hx
  cases hx

/-- A new node takes the last of the trees as its children. -/
theorem node {id : NodeId} {n : Node} {fs : List (Field (Tree NodeId))}
    (h : Grows a (us ++ Tree.subtrees fs) b) (hleaf : ∀ s, .leaf s ∈ fs → s.child? = none)
    (hadd : Adds b id n c) (hslots : n.slots = fs.map Field.slot) :
    Grows a (us ++ [.node id n.tag fs]) c := by
  have hlive : ∀ x ∈ (us ++ Tree.subtrees fs).flatMap Tree.labels, x ≠ id := by
    rintro x hx rfl
    obtain ⟨n, hn⟩ := h.live hx
    rw [hadd.fresh] at hn
    cases hn
  have hplaced : ∀ t ∈ us ++ Tree.subtrees fs, t.In c := by
    intro t ht
    apply (h.placed t ht).congr
    intro x hx
    exact hadd.elsewhere x (hlive x (List.mem_flatMap.mpr ⟨t, ht, hx⟩))
  have hperm : ((us ++ [Tree.node id n.tag fs]).flatMap Tree.labels).Perm
      (id :: (us ++ Tree.subtrees fs).flatMap Tree.labels) := by
    simp only [List.flatMap_append, List.flatMap_cons, List.flatMap_nil, List.append_nil,
      Tree.labels_node]
    exact List.perm_middle
  constructor
  · intro t ht
    rcases List.mem_append.mp ht with ht | ht
    · exact hplaced t (List.mem_append_left _ ht)
    · rw [List.mem_singleton.mp ht]
      exact Tree.in_of_eq hadd.not_null hadd.here rfl hslots hleaf fun u hu =>
        hplaced u (List.mem_append_right _ (Tree.mem_subtrees.mpr hu))
  · rw [hperm.nodup_iff, List.nodup_cons]
    exact ⟨fun hmem => hlive id hmem rfl, h.nodup⟩
  · intro x hx
    rcases List.mem_cons.mp (hperm.mem_iff.mp hx) with rfl | hx
    · by_cases hmem : x ∈ (us ++ Tree.subtrees fs).flatMap Tree.labels
      · exact h.fresh x hmem
      · rw [← h.kept x hmem]
        exact hadd.fresh
    · exact h.fresh x hx
  · intro x hx
    rw [hperm.mem_iff, List.mem_cons, not_or] at hx
    rw [hadd.elsewhere x hx.1, h.kept x hx.2]
  · exact hadd.wellFormed
  · rw [hadd.liveCount, h.liveCount, hperm.length_eq, List.length_cons, Nat.add_assoc]

theorem push (us : List (Tree NodeId)) {tag : Tag} {fs : List (Field (Tree NodeId))}
    (h : Grows a (us ++ Tree.subtrees fs) b) (hr : b.Room 1)
    (hleaf : ∀ s, .leaf s ∈ fs → s.child? = none)
    (hfits : (Node.bare tag (fs.map Field.slot)).Fits) :
    ∃ id c, Arena.push tag (fs.map Field.slot) b = .ok (id, c) ∧
      Grows a (us ++ [.node id tag fs]) c ∧ c.liveCount = b.liveCount + 1 := by
  obtain ⟨id, c, hc, hadds⟩ := push_adds h.wellFormed hr hfits
  exact ⟨id, c, hc, h.node hleaf hadds rfl, hadds.liveCount⟩

theorem restores (h : Grows a ts b) (h' : Restores b c) : Grows a ts c where
  placed t ht := (h.placed t ht).congr fun x _ => h'.get? x
  nodup := h.nodup
  fresh := h.fresh
  kept x hx := by rw [h'.get? x, h.kept x hx]
  wellFormed := h'.wellFormed
  liveCount := by rw [h'.liveCount, h.liveCount]

/-- Clearing what was grown restores the arena. -/
theorem clear (h : Grows a ts b) (h' : Clears b (ts.flatMap Tree.labels) c) : Restores a c where
  get? x := by
    by_cases hx : x ∈ ts.flatMap Tree.labels
    · rw [h'.cleared x hx, h.fresh x hx]
    · rw [h'.kept x hx, h.kept x hx]
  wellFormed := h'.wellFormed
  liveCount := by
    have h1 := h.liveCount
    have h2 := h'.liveCount
    omega

/-- Freeing the fields that were made restores the arena. -/
theorem freeSlots {fs : List (Field (Tree NodeId))} (h : Grows a (Tree.subtrees fs) b)
    (hleaf : ∀ s, .leaf s ∈ fs → s.child? = none) :
    ∃ c, Arena.freeSlots (fs.map Field.slot) b = .ok ((), c) ∧ Restores a c := by
  obtain ⟨c, hc, hclears⟩ := freeSlots_clears h.wellFormed hleaf h.placed h.nodup
  exact ⟨c, hc, h.clear hclears⟩

/-- Freeing the one tree that was made restores the arena. -/
theorem free {t : Tree NodeId} (h : Grows a [t] b) :
    ∃ c, Arena.free t.label b = .ok ((), c) ∧ Restores a c := by
  have hlabels : [t].flatMap Tree.labels = t.labels := List.flatMap_singleton _ _
  obtain ⟨c, hc, hclears⟩ :=
    free_clears (h.placed t List.mem_cons_self) (hlabels ▸ h.nodup) h.wellFormed
  exact ⟨c, hc, h.clear (hlabels.symm ▸ hclears)⟩

end Grows

end Arena

end Foam
