import Foam.Codec.Position
import Foam.Proofs.Codec.Canonical
import Foam.Proofs.Codec.Recoded
import Mathlib.Data.List.Flatten

/-!
# Positions before and after

The nodes of a tree whose positions are stored are its procedures and the statements of its
sequences, as far as they are met before or at the first sequence on their path. A tree and what
comes back of it have such nodes on the same paths, as no wide literal has one, so the positions of
the one can be read back into the other.
-/

namespace Foam

namespace Tree

/-! ## Nodes with a position -/

section

variable {α : Type} {t : Tree α} {tag : Tag} {fs : List (Field (Tree α))}

/-- The children among the fields from slot `i` on, each with its path. -/
def offspring : (i : Nat) → List (Field (Tree α)) → List (List Nat × Tree α)
  | _, [] => []
  | i, .leaf _ :: fs => offspring (i + 1) fs
  | i, .child t :: fs => ([i], t) :: offspring (i + 1) fs

mutual
/-- The subtrees whose positions are stored, in order, each with its path: the slots that lead
there. -/
def recorded : Tree α → List (List Nat × Tree α)
  | node l tag fs =>
    if tag = .seq then offspring 0 fs
    else (if tag = .prog then [([], node l tag fs)] else []) ++ recordedFrom 0 fs
def recordedFrom : (i : Nat) → List (Field (Tree α)) → List (List Nat × Tree α)
  | _, [] => []
  | i, .leaf _ :: fs => recordedFrom (i + 1) fs
  | i, .child t :: fs => t.recorded.map (Prod.map (i :: ·) id) ++ recordedFrom (i + 1) fs
end

/-- The subtree at the end of a path. -/
def at? : Tree α → List Nat → Option (Tree α)
  | t, [] => some t
  | node _ _ fs, i :: path =>
    match fs[i]? with
    | some (.child t) => t.at? path
    | _ => none

theorem at?_cons {l : α} {i : Nat} {path : List Nat} (h : fs[i]? = some (.child t)) :
    (node l tag fs).at? (i :: path) = t.at? path := by
  rw [at?, h]

theorem getElem?_of_mem_offspring {p : List Nat × Tree α} {i : Nat} (h : p ∈ offspring i fs) :
    ∃ j, p.1 = [i + j] ∧ fs[j]? = some (.child p.2) := by
  induction fs generalizing i with
  | nil => cases h
  | cons f fs ih =>
      have hrest : p ∈ offspring (i + 1) fs →
          ∃ j, p.1 = [i + j] ∧ (f :: fs)[j]? = some (.child p.2) := by
        intro h
        obtain ⟨j, hpath, hj⟩ := ih h
        exact ⟨j + 1, by rw [hpath, Nat.add_assoc, Nat.add_comm 1], hj⟩
      cases f with
      | leaf s => exact hrest h
      | child t =>
          rcases List.mem_cons.mp h with rfl | h
          · exact ⟨0, rfl, rfl⟩
          · exact hrest h

theorem getElem?_of_mem_recordedFrom {p : List Nat × Tree α} {i : Nat}
    (h : p ∈ recordedFrom i fs) : ∃ j t path, p.1 = (i + j) :: path ∧ fs[j]? = some (.child t) ∧
      (path, p.2) ∈ t.recorded := by
  induction fs generalizing i with
  | nil => cases h
  | cons f fs ih =>
      have hrest : p ∈ recordedFrom (i + 1) fs → ∃ j t path, p.1 = (i + j) :: path ∧
          (f :: fs)[j]? = some (.child t) ∧ (path, p.2) ∈ t.recorded := by
        intro h
        obtain ⟨j, t, path, hpath, hj, hmem⟩ := ih h
        exact ⟨j + 1, t, path, by rw [hpath, Nat.add_assoc, Nat.add_comm 1], hj, hmem⟩
      cases f with
      | leaf s => exact hrest h
      | child t =>
          rw [recordedFrom, List.mem_append] at h
          rcases h with h | h
          · obtain ⟨q, hq, rfl⟩ := List.mem_map.mp h
            exact ⟨0, t, q.1, rfl, rfl, hq⟩
          · exact hrest h

/-- The path of a recorded subtree leads to it. -/
theorem at?_of_recorded {path : List Nat} {y : Tree α} (h : (path, y) ∈ t.recorded) :
    t.at? path = some y := by
  induction t generalizing path with
  | node l tag fs ih =>
      rw [recorded] at h
      split at h
      · obtain ⟨j, hpath, hj⟩ := getElem?_of_mem_offspring h
        rw [Nat.zero_add] at hpath
        obtain rfl : path = [j] := hpath
        rw [at?_cons hj, at?]
      · rcases List.mem_append.mp h with h | h
        · split at h
          · obtain ⟨rfl, rfl⟩ := Prod.mk.inj (List.mem_singleton.mp h)
            rfl
          · cases h
        · obtain ⟨j, t, path', hpath, hj, hmem⟩ := getElem?_of_mem_recordedFrom h
          rw [Nat.zero_add] at hpath
          obtain rfl : path = j :: path' := hpath
          rw [at?_cons hj]
          exact ih t (List.mem_of_getElem? hj) hmem

/-- The labels of the recorded subtrees. -/
def recordedLabels (t : Tree α) : List α := t.recorded.map fun p => p.2.label

theorem offspring_labels (i : Nat) :
    (offspring i fs).map (fun p => p.2.label) = (subtrees fs).map label := by
  induction fs generalizing i with
  | nil => rfl
  | cons f fs ih => cases f <;> simp [offspring, ih]

theorem recordedFrom_labels (i : Nat) : (recordedFrom i fs).map (fun p => p.2.label) =
    (subtrees fs).flatMap recordedLabels := by
  induction fs generalizing i with
  | nil => rfl
  | cons f fs ih => cases f <;> simp [recordedFrom, recordedLabels, ih]

theorem recordedLabels_node (l : α) : (node l tag fs).recordedLabels =
    if tag = .seq then (subtrees fs).map label
    else (if tag = .prog then [l] else []) ++ (subtrees fs).flatMap recordedLabels := by
  rw [recordedLabels, recorded]
  split
  · exact offspring_labels 0
  · rw [List.map_append, recordedFrom_labels]
    split <;> rfl

/-- In a tree without shared nodes no node is recorded twice. -/
theorem recordedLabels_sublist : t.recordedLabels.Sublist t.labels := by
  induction t with
  | node l tag fs ih =>
      rw [recordedLabels_node, labels_node]
      have hroots : ((subtrees fs).map label).Sublist ((subtrees fs).flatMap labels) := by
        rw [List.map_eq_flatMap]
        exact List.Sublist.flatMap_right _ fun t _ =>
          List.singleton_sublist.mpr (label_mem_labels t)
      have hbelow : ((subtrees fs).flatMap recordedLabels).Sublist ((subtrees fs).flatMap labels) :=
        List.Sublist.flatMap_right _ fun t ht => ih t (mem_subtrees.mp ht)
      split
      · exact hroots.cons l
      · split
        · exact hbelow.cons_cons l
        · exact hbelow.cons l

theorem recordedFrom_eq_nil (h : ∀ t, .child t ∈ fs → t.recorded = []) (i : Nat) :
    recordedFrom i fs = [] := by
  induction fs generalizing i with
  | nil => rfl
  | cons f fs ih =>
      have hrest := ih (fun t ht => h t (List.mem_cons_of_mem _ ht)) (i + 1)
      cases f with
      | leaf s => exact hrest
      | child t => rw [recordedFrom, h t List.mem_cons_self, hrest, List.map_nil, List.append_nil]

theorem IsIntExpr.recorded_eq_nil (h : t.IsIntExpr) : t.recorded = [] := by
  induction h with
  | sint => rfl
  | @bcall l op args _ _ ih =>
      rw [recorded, if_neg (by decide), if_neg (by decide), List.nil_append]
      refine recordedFrom_eq_nil (fun t ht => ?_) 0
      rcases List.mem_cons.mp ht with ht | ht
      · cases ht
      · obtain ⟨u, hu, heq⟩ := List.mem_map.mp ht
        obtain rfl := Field.child.inj heq
        exact ih u hu

theorem recorded_of_wide (hfits : t.Fits) {v : Int64} (h : t.wide? = some v) : t.recorded = [] := by
  have htag := tag_of_wide h
  have hfields := fields_of_wide hfits h
  obtain ⟨l, tag, fs⟩ := t
  obtain rfl : tag = .sint := htag
  obtain rfl : fs = [.leaf (.int v)] := hfields
  rfl

end

/-! ## The same paths -/

section

variable {a b : Arena} {t u : Tree NodeId} {fs gs : List (Field (Tree NodeId))}

/-- Recorded subtrees on one path, of which the second is what comes back of the first. -/
def Counterparts (a b : Arena) (p q : List Nat × Tree NodeId) : Prop :=
  p.1 = q.1 ∧ p.2.Recodes a b q.2

theorem offspring_counterparts
    (h : List.Forall₂ (fun f g => Option.Rel (Recodes a b) f.child? g.child?) fs gs) (i : Nat) :
    List.Forall₂ (Counterparts a b) (offspring i fs) (offspring i gs) := by
  induction h generalizing i with
  | nil => exact .nil
  | @cons f g fs gs hfg _ ih =>
      rcases f with s | t <;> rcases g with r | u <;> cases hfg
      · exact ih (i + 1)
      · next htu => exact .cons ⟨rfl, htu⟩ (ih (i + 1))

theorem recordedFrom_counterparts
    (h : List.Forall₂ (fun f g => Option.Rel (Recodes a b) f.child? g.child?) fs gs)
    (ih : ∀ t, .child t ∈ fs → ∀ u, t.Recodes a b u →
      List.Forall₂ (Counterparts a b) t.recorded u.recorded) (i : Nat) :
    List.Forall₂ (Counterparts a b) (recordedFrom i fs) (recordedFrom i gs) := by
  induction h generalizing i with
  | nil => exact .nil
  | @cons f g fs gs hfg _ ihfs =>
      have hrest := ihfs (fun t ht => ih t (List.mem_cons_of_mem _ ht)) (i + 1)
      rcases f with s | t <;> rcases g with r | u <;> cases hfg
      · exact hrest
      · next htu =>
          refine List.rel_append (List.rel_map (fun p q hpq => ?_) (ih t List.mem_cons_self u htu))
            hrest
          exact ⟨congrArg (i :: ·) hpq.1, hpq.2⟩

/-- A tree and what comes back of it record positions on the same paths. -/
theorem recorded_counterparts (h : t.Recodes a b u) (hw : a.WellFormed) :
    List.Forall₂ (Counterparts a b) t.recorded u.recorded := by
  induction t generalizing u with
  | node id tag fs ih =>
      cases hwide : (node id tag fs).wide? with
      | some v =>
          rw [recorded_of_wide (h.source.fits hw) hwide, (h.of_wide hwide).recorded_eq_nil]
          exact .nil
      | none =>
          have htag : u.tag = tag := (h.node hw hwide).1
          have hfields : List.Forall₂ (fun f g => Option.Rel (Recodes a b) f.child? g.child?) fs
              u.fields := h.fields_forall₂ hw hwide fun i kind f g _ hfg => by
            cases hfg with
            | leaf => exact .none
            | child h => exact .some h
          obtain ⟨id', tag', gs⟩ := u
          obtain rfl : tag' = tag := htag
          have hbelow := recordedFrom_counterparts hfields (fun t ht u => ih t ht) 0
          rw [Tree.recorded, Tree.recorded]
          by_cases hseq : tag' = .seq
          · rw [if_pos hseq, if_pos hseq]
            exact offspring_counterparts hfields 0
          · rw [if_neg hseq, if_neg hseq]
            by_cases hprog : tag' = .prog
            · rw [if_pos hprog, if_pos hprog]
              exact .cons ⟨rfl, h⟩ hbelow
            · rw [if_neg hprog, if_neg hprog]
              exact hbelow

end

end Tree

/-! ## Spans read from an arena -/

/-- The span of a node. -/
def Arena.spanOf (a : Arena) (id : NodeId) : Span := (a.get? id).elim .unknown Node.span

namespace Codec

open Foam.Tree

variable {a : Arena} {t : Tree NodeId} {fs : List (Field (Tree NodeId))}

theorem spanOf_of_get? {id : NodeId} {n : Node} (h : a.get? id = some n) :
    a.spanOf id = n.span := by
  rw [Arena.spanOf, h]
  rfl

theorem statementSpan_label (ht : t.In a) :
    statementSpan a (.code t.label) = .ok (a.spanOf t.label) := by
  obtain ⟨hnull, -, n, hn, -⟩ := ht.here
  have hchild : (Slot.code t.label).child? = some t.label := by
    rw [Slot.child?, hnull]
    rfl
  rw [statementSpan, hchild, spanOf_of_get? hn]
  show (a.node t.label >>= fun n => _) = _
  rw [Arena.node_of_get? hn]
  rfl

/-- The kind of every slot of a sequence is that of a child, so none of a sound one is empty. -/
theorem fields_of_seq {α : Type} {l : α} {fs : List (Field (Tree α))}
    (h : (node l .seq fs).Sound) : fs = (subtrees fs).map .child := by
  obtain ⟨-, hfields, -⟩ := obeys_node.mp h
  rw [Layout.kinds_children (l := Tag.seq.layout) rfl] at hfields
  clear h
  generalize fs.length = n at hfields
  induction fs generalizing n with
  | nil => rfl
  | cons f fs ih =>
      obtain ⟨k, kinds, hf, hrest, hkinds⟩ := List.forall₂_cons_right_iff.mp hfields
      cases n with
      | zero => cases hkinds
      | succ n =>
          obtain ⟨rfl, rfl⟩ := List.cons.inj hkinds
          cases f with
          | leaf s => exact absurd rfl (show Slot.Sound .child s from hf).1
          | child t => exact congrArg _ (ih n hrest)

theorem mapM_map_eq_ok {α β γ : Type} {e : γ → α} {f : α → Checked β} {g : γ → β} {xs : List γ}
    (h : ∀ x ∈ xs, f (e x) = .ok (g x)) : (xs.map e).mapM f = .ok (xs.map g) := by
  rw [List.mapM_map]
  exact Checked.mapM_eq_ok h

/-- What is stored are the spans of the recorded nodes. -/
theorem spansFrom_eq (ht : t.In a) (hs : t.Sound) {depth : Nat} (hd : t.height ≤ depth) :
    spansFrom a depth t.label = .ok (t.recordedLabels.map a.spanOf) := by
  induction t generalizing depth with
  | node id tag fs ih =>
      obtain ⟨depth, rfl⟩ : ∃ d, depth = d + 1 := ⟨depth - 1, by
        have := Tree.height_pos (node id tag fs)
        omega⟩
      obtain ⟨n, hn, htag, hslots⟩ := ht.get?
      have hspan : a.spanOf id = n.span := spanOf_of_get? hn
      obtain ⟨-, -, hbelow⟩ := obeys_node.mp hs
      rw [Tree.label, spansFrom, Arena.node_of_get? hn, Checked.ok_bind, htag, recordedLabels_node]
      by_cases hseq : tag = .seq
      · subst hseq
        have hfs := fields_of_seq hs
        have hslots' : n.slots = (subtrees fs).map fun t => .code t.label := by
          rw [hslots]
          conv_lhs => rw [hfs, List.map_map]
          rfl
        rw [if_pos rfl, if_pos rfl, hslots', List.map_map]
        exact mapM_map_eq_ok fun t ht' => statementSpan_label (ht.child (mem_subtrees.mp ht'))
      · have hchildren : (n.children.mapM (spansFrom a depth) : Checked _) =
            .ok ((subtrees fs).map fun t => t.recordedLabels.map a.spanOf) := by
          rw [ht.children hn]
          refine mapM_map_eq_ok fun t ht' => ?_
          have ht' := mem_subtrees.mp ht'
          have := Tree.height_lt id tag ht'
          exact ih t ht' (ht.child ht') (hbelow t ht') (by omega)
        rw [if_neg hseq, if_neg hseq, hchildren]
        show Except.ok _ = _
        rw [List.map_append, List.map_flatMap, List.flatMap_def]
        by_cases hprog : tag = .prog
        · rw [if_pos hprog, if_pos hprog, List.map_singleton, hspan]
        · rw [if_neg hprog, if_neg hprog, List.map_nil]

theorem putPositions_eq (ht : t.In a) (hs : t.Sound) : Buffer.empty.putPositions a t.label =
    .ok (.mid ((t.recordedLabels.map a.spanOf).flatMap spanBytes) []) := by
  have hspans : spans a t.label = .ok (t.recordedLabels.map a.spanOf) := by
    rw [spans, ht.label_not_null]
    exact spansFrom_eq ht hs (Nat.le_of_lt ht.height_lt_depthBound)
  have hempty : Buffer.empty = .mid [] [] := rfl
  rw [Buffer.putPositions, hspans, Checked.ok_bind, hempty, Buffer.put_mid, List.drop_nil]
  rfl

/-! ## Spans given to nodes -/

/-- From `a` to `b` the nodes `ids` are given spans by `g`, and nothing else changes. -/
structure Respans (a : Arena) (ids : List NodeId) (g : NodeId → Span) (b : Arena) : Prop where
  given : ∀ x ∈ ids, ∃ n, a.get? x = some n ∧ b.get? x = some { n with span := g x }
  kept : ∀ x, x ∉ ids → b.get? x = a.get? x
  vacant : b.vacant = a.vacant
  wellFormed : b.WellFormed

namespace Respans

variable {b c : Arena} {xs ys : List NodeId} {g : NodeId → Span}

theorem nil (hw : a.WellFormed) : Respans a [] g a where
  given _ hx := absurd hx List.not_mem_nil
  kept _ _ := rfl
  vacant := rfl
  wellFormed := hw

theorem append (h : Respans a xs g b) (h' : Respans b ys g c) : Respans a (xs ++ ys) g c where
  given x hx := by
    by_cases hxs : x ∈ xs
    · obtain ⟨n, hn, hb⟩ := h.given x hxs
      refine ⟨n, hn, ?_⟩
      by_cases hys : x ∈ ys
      · obtain ⟨m, hm, hc⟩ := h'.given x hys
        obtain rfl := Option.some.inj (hb.symm.trans hm)
        exact hc
      · rw [h'.kept x hys, hb]
    · have hys : x ∈ ys := (List.mem_append.mp hx).resolve_left hxs
      rw [← h.kept x hxs]
      exact h'.given x hys
  kept x hx := by
    rw [List.mem_append, not_or] at hx
    rw [h'.kept x hx.2, h.kept x hx.1]
  vacant := h'.vacant.trans h.vacant
  wellFormed := h'.wellFormed

/-- A node keeps all but its span. -/
theorem get? (h : Respans a xs g b) {x : NodeId} {n : Node} (hn : a.get? x = some n) :
    ∃ s, b.get? x = some { n with span := s } := by
  by_cases hx : x ∈ xs
  · obtain ⟨m, hm, hb⟩ := h.given x hx
    obtain rfl := Option.some.inj (hn.symm.trans hm)
    exact ⟨_, hb⟩
  · exact ⟨n.span, (h.kept x hx).trans hn⟩

theorem spanOf (h : Respans a xs g b) {x : NodeId} (hx : x ∈ xs) : b.spanOf x = g x := by
  obtain ⟨n, -, hb⟩ := h.given x hx
  rw [spanOf_of_get? hb]

/-- Trees stay where they are. -/
theorem tree_in (h : Respans a xs g b) (ht : t.In a) : t.In b := by
  refine Every.imp (fun u hu => ?_) ht
  obtain ⟨hnull, hleaf, n, hn, htag, hslots⟩ := hu
  obtain ⟨s, hb⟩ := h.get? hn
  exact ⟨hnull, hleaf, _, hb, htag, hslots⟩

end Respans

theorem setSpan_respans {id : NodeId} {n : Node} {g : NodeId → Span} (hw : a.WellFormed)
    (hn : a.get? id = some n) :
    ∃ b, Arena.setSpan id (g id) a = .ok ((), b) ∧ Respans a [id] g b := by
  refine ⟨a.write id.index { n with span := g id }, ?_, ?_⟩
  · rw [Arena.setSpan_eq]
    exact Arena.modifyNode_of_get? hn
  · refine ⟨fun x hx => ?_, fun x hx => ?_, rfl, Arena.modify_wellFormed hw hn (hw.fits id n hn)⟩
    · obtain rfl := List.mem_singleton.mp hx
      exact ⟨n, hn, by rw [Arena.get?_write hn, if_pos rfl]⟩
    · rw [Arena.get?_write hn, if_neg (by simpa using hx)]

/-! ## Spans read back -/

theorem getSpan_spanBytes (s : Span) : Reads getSpan (spanBytes s) s := by
  have hword : ∀ n : UInt32, Reads (getUnsigned 4) (Word.toBytes 4 n.toNat) n.toNat :=
    fun n => getUnsigned_toBytes 4 n.toNat_lt
  have hstop : Reads (getUnsigned 4 >>= fun stop =>
      pure (⟨UInt32.ofNat s.start.toNat, UInt32.ofNat stop⟩ : Span))
      (Word.toBytes 4 s.stop.toNat) s := by
    have hread := (hword s.stop).map (g := fun stop =>
      (⟨UInt32.ofNat s.start.toNat, UInt32.ofNat stop⟩ : Span))
    simp only [UInt32.ofNat_toNat] at hread ⊢
    exact hread
  exact (hword s.start).bind hstop

/-- The computation takes spans for the nodes `ids`, which are those by `g`, and gives them. -/
def Places (x : DecodeM PUnit) (a : Arena) (ids : List NodeId) (g : NodeId → Span) : Prop :=
  ∀ before after, ∃ b, x (.mid before ((ids.map g).flatMap spanBytes ++ after)) a =
    .ok ((.ok (), .mid (before ++ (ids.map g).flatMap spanBytes) after), b) ∧ Respans a ids g b

namespace Places

variable {b : Arena} {x y : DecodeM PUnit} {xs ys : List NodeId} {g : NodeId → Span}

theorem pure (hw : a.WellFormed) : Places (pure ()) a [] g := by
  intro before after
  exact ⟨a, by rw [List.map_nil, List.flatMap_nil, List.append_nil]; rfl, .nil hw⟩

theorem seq (h : Places x a xs g) (h' : ∀ b, Respans a xs g b → Places y b ys g) :
    Places (x >>= fun _ => y) a (xs ++ ys) g := by
  intro before after
  rw [List.map_append, List.flatMap_append, List.append_assoc]
  obtain ⟨b, hx, hb⟩ := h before ((ys.map g).flatMap spanBytes ++ after)
  obtain ⟨c, hy, hc⟩ := h' b hb (before ++ (xs.map g).flatMap spanBytes) after
  exact ⟨c, by rw [DecodeM.bind_ok hx, hy, List.append_assoc], hb.append hc⟩

/-- Trees one after the other. -/
theorem forM {f : NodeId → DecodeM PUnit} {ts : List (Tree NodeId)}
    {ids : Tree NodeId → List NodeId}
    (hw : a.WellFormed) (hts : ∀ t ∈ ts, t.In a)
    (h : ∀ t ∈ ts, ∀ a : Arena, a.WellFormed → t.In a → Places (f t.label) a (ids t) g) :
    Places ((ts.map label).forM f) a (ts.flatMap ids) g := by
  induction ts generalizing a with
  | nil => exact .pure hw
  | cons t ts ih =>
      refine (h t List.mem_cons_self a hw (hts t List.mem_cons_self)).seq fun b hb => ?_
      refine ih hb.wellFormed (fun u hu => hb.tree_in (hts u (List.mem_cons_of_mem _ hu))) ?_
      exact fun u hu => h u (List.mem_cons_of_mem _ hu)

end Places

variable {g : NodeId → Span} {n : Node}

/-- A span is taken and given to a node. -/
theorem places_span {id : NodeId} {x : Span → DecodeM PUnit} (hw : a.WellFormed)
    (hn : a.get? id = some n)
    (hx : ∀ b, x (g id) b a = ((Arena.setSpan id (g id) : ArenaM Unit) : DecodeM Unit) b a) :
    Places (reading getSpan >>= x) a [id] g := by
  intro before after
  obtain ⟨b, hset, hb⟩ := setSpan_respans (g := g) hw hn
  refine ⟨b, ?_, hb⟩
  rw [List.map_singleton, List.flatMap_singleton]
  have hread : reading getSpan (.mid before (spanBytes (g id) ++ after)) a =
      .ok ((.ok (g id), .mid (before ++ spanBytes (g id)) after), a) :=
    reading_eq_ok.mpr ⟨getSpan_spanBytes _ _ _, rfl⟩
  rw [DecodeM.bind_ok hread, hx]
  exact DecodeM.lift_eq_ok.mpr ⟨hset, rfl⟩

theorem placeStatement_places {seq : NodeId} {i : Nat} (hw : a.WellFormed)
    (hn : a.get? seq = some n)
    (hi : n.slots[i]? = some (.code t.label)) (ht : t.In a) :
    Places (placeStatement seq i) a [t.label] g := by
  obtain ⟨hnull, -, m, hm, -⟩ := ht.here
  refine places_span hw hm fun b => ?_
  have hget : (getThe Arena : DecodeM Arena) b a = .ok ((.ok a, b), a) := rfl
  have hchild : (a.child seq i : DecodeM NodeId) b a = .ok ((.ok t.label, b), a) := by
    rw [Arena.child_of_get? hn hi]
    rfl
  rw [DecodeM.bind_ok hget, DecodeM.bind_ok hchild, hnull]
  rfl

/-- The statements of a sequence, `done` being the slots before them. -/
theorem placeStatements_places {seq : NodeId} {ts : List (Tree NodeId)} {done : List Slot}
    (hw : a.WellFormed) (hn : a.get? seq = some n)
    (hslots : n.slots = done ++ ts.map fun t => .code t.label) (hts : ∀ t ∈ ts, t.In a) :
    Places ((List.range' done.length ts.length).forM (placeStatement seq)) a (ts.map label) g := by
  induction ts generalizing a n done with
  | nil => exact .pure hw
  | cons t ts ih =>
      have hi : n.slots[done.length]? = some (.code t.label) := by
        rw [hslots, List.map_cons, List.getElem?_append_right (Nat.le_refl _), Nat.sub_self]
        rfl
      have hhead := placeStatement_places (g := g) hw hn hi (hts t List.mem_cons_self)
      refine hhead.seq fun b hb => ?_
      obtain ⟨s, hb'⟩ := hb.get? hn
      have hslots' : n.slots = (done ++ [.code t.label]) ++ ts.map fun t => .code t.label := by
        rw [hslots, List.append_assoc]
        rfl
      have hrest := ih hb.wellFormed hb' hslots' fun u hu =>
        hb.tree_in (hts u (List.mem_cons_of_mem _ hu))
      rwa [List.length_append, List.length_singleton] at hrest

/-- Spans are read for the recorded nodes. -/
theorem placeFrom_places (hw : a.WellFormed) (ht : t.In a) (hs : t.Sound) {depth : Nat}
    (hd : t.height ≤ depth) : Places (placeFrom depth t.label) a t.recordedLabels g := by
  induction t generalizing a depth with
  | node id tag fs ih =>
      obtain ⟨depth, rfl⟩ : ∃ d, depth = d + 1 := ⟨depth - 1, by
        have := Tree.height_pos (node id tag fs)
        omega⟩
      obtain ⟨n, hn, htag, hslots⟩ := ht.get?
      obtain ⟨-, -, hbelow⟩ := obeys_node.mp hs
      have hget : ∀ b, (getThe Arena : DecodeM Arena) b a = .ok ((.ok a, b), a) := fun b => rfl
      have hnode : ∀ b, (a.node id : DecodeM Node) b a = .ok ((.ok n, b), a) := by
        intro b
        rw [Arena.node_of_get? hn]
        rfl
      rw [Tree.label, recordedLabels_node]
      unfold placeFrom
      intro before after
      rw [DecodeM.bind_ok (hget _), DecodeM.bind_ok (hnode _), htag]
      revert before after
      show Places _ a _ g
      by_cases hseq : tag = .seq
      · subst hseq
        have hfs := fields_of_seq hs
        have hslots' : n.slots = [] ++ (subtrees fs).map fun t => .code t.label := by
          rw [hslots]
          conv_lhs => rw [hfs, List.map_map]
          rfl
        rw [if_pos rfl, if_pos rfl, hslots', List.range_eq_range', List.nil_append, List.length_map]
        exact placeStatements_places hw hn hslots' fun t ht' => ht.child (mem_subtrees.mp ht')
      · rw [if_neg hseq, if_neg hseq, ht.children hn]
        have hchildren : ∀ b, b.WellFormed → (node id tag fs).In b →
            Places (((subtrees fs).map label).forM (placeFrom depth)) b
              ((subtrees fs).flatMap recordedLabels) g := by
          intro b hb hin
          refine .forM hb (fun t ht' => hin.child (mem_subtrees.mp ht')) fun t ht' c hc htc => ?_
          have ht' := mem_subtrees.mp ht'
          have := Tree.height_lt id tag ht'
          exact ih t ht' hc htc (hbelow t ht') (by omega)
        by_cases hprog : tag = .prog
        · rw [if_pos hprog, if_pos hprog]
          have hown : Places (reading getSpan >>= fun s => (Arena.setSpan id s : ArenaM Unit)) a
              [id] g := places_span hw hn fun _ => rfl
          have hall := hown.seq fun b hb => hchildren b hb.wellFormed (hb.tree_in ht)
          rwa [bind_assoc] at hall
        · rw [if_neg hprog, if_neg hprog]
          exact hchildren a hw ht

/-- The spans of the recorded nodes are taken to the last byte. -/
theorem placePositions_places (hw : a.WellFormed) (ht : t.In a) (hs : t.Sound) :
    Places (placePositions t.label) a t.recordedLabels g := by
  intro before after
  have hget : ∀ b, (getThe Arena : DecodeM Arena) b a = .ok ((.ok a, b), a) := fun b => rfl
  have hbuffer : ∀ b, (getThe Buffer : DecodeM Buffer) b a = .ok ((.ok b, b), a) := fun b => rfl
  have hd : ∀ k, t.height ≤ a.depthBound * (k + 1) := by
    intro k
    exact (Nat.le_of_lt ht.height_lt_depthBound).trans (Nat.le_mul_of_pos_right _ (Nat.succ_pos k))
  obtain ⟨b, hrun, hb⟩ := placeFrom_places (g := g) hw ht hs (hd _) before after
  refine ⟨b, ?_, hb⟩
  rw [placePositions, ht.label_not_null]
  exact (DecodeM.bind_ok (hget _)).trans ((DecodeM.bind_ok (hbuffer _)).trans hrun)

/-! ## Positions of a decoded tree -/

instance : Nonempty Span := ⟨.unknown⟩

/-- In `d'` the tree `u` of `d` has the positions of the tree `t` of `a`, path by path, and nothing
else has changed. -/
structure Repositions (a : Arena) (t : Tree NodeId) (d : Arena) (u : Tree NodeId) (d' : Arena) :
    Prop where
  paths : u.recorded.map Prod.fst = t.recorded.map Prod.fst
  spans : ∀ path y, (path, y) ∈ u.recorded → ∃ x, t.at? path = some x ∧
    y.form = x.form.recoded ∧ d'.spanOf y.label = a.spanOf x.label
  others : ∀ id, (∀ p ∈ u.recorded, p.2.label ≠ id) → d'.get? id = d.get? id
  fields : ∀ id n, d.get? id = some n → ∃ s, d'.get? id = some { n with span := s }
  vacant : d'.vacant = d.vacant

/-- The positions of a tree are read back, to the last byte, into the tree that has been decoded
from its bytes, which has the same positions then. -/
theorem placePositions_decoded {a dst : Arena} {t : Tree NodeId} {bytes : List UInt8}
    (hw : a.WellFormed) (ht : t.In a) (htable : t.InTable) (h : encode a t.label = pure bytes)
    (hdst : dst.WellFormed) (hroom : dst.Room t.form.recoded.size) :
    ∃ (u : Tree NodeId) (d : Arena) (positions : Buffer),
      (decode.run.run (.ofList bytes)).run dst = .ok ((.ok u.label, .mid bytes []), d) ∧ u.In d ∧
      Buffer.empty.putPositions a t.label = .ok positions ∧ ∃ c d',
        ((placePositions u.label).run.run positions.rewind).run d = .ok ((.ok (), c), d') ∧
        c.bytes = positions.bytes ∧ c.remaining = 0 ∧ Repositions a t d u d' ∧
        Buffer.empty.putPositions d' u.label = .ok positions := by
  rw [Tree.encode_eq ht] at h
  have hvalid : t.form.Valid := t.obeys_form.mpr ((ht.fits hw).valid htable)
  have hsound : t.Sound := t.obeys_form.mp (sound_of_encode hvalid h)
  obtain ⟨s, hread, hs, -⟩ := Tree.read_encode (ht.valid_narrowed hw htable) h [] []
  obtain ⟨u, d, hrun, hform, hgrows⟩ := decode_of_read hread hdst (by rwa [hs])
  rw [List.append_nil, List.nil_append] at hrun
  have hu : u.In d := hgrows.placed u List.mem_cons_self
  have husound : u.Sound := by
    obtain ⟨-, k, -, -, hsound⟩ := read_consumes _ _ _ hread
    exact u.obeys_form.mp (hform ▸ s.obeys_form.mpr hsound)
  have hnd : u.recordedLabels.Nodup := by
    refine recordedLabels_sublist.nodup ?_
    simpa using hgrows.nodup
  have hpairs := recorded_counterparts ⟨ht, hu, hform.trans hs⟩ hw
  have hlen : u.recordedLabels.length = (t.recordedLabels.map a.spanOf).length := by
    rw [recordedLabels, recordedLabels, List.length_map, List.length_map, List.length_map,
      hpairs.length_eq]
  obtain ⟨g, hg⟩ := exists_map_eq hnd hlen
  obtain ⟨d', hplace, hd'⟩ := placePositions_places (g := g) hgrows.wellFormed hu husound [] []
  rw [hg, List.nil_append] at hplace
  have hrewind : (Buffer.mid ((t.recordedLabels.map a.spanOf).flatMap spanBytes) []).rewind =
      .mid [] ((t.recordedLabels.map a.spanOf).flatMap spanBytes ++ []) :=
    Buffer.seek_pos _ _ 0 (Nat.zero_le _)
  refine ⟨u, d, _, hrun, hu, putPositions_eq ht hsound, _, d', hrewind ▸ hplace, rfl, by simp,
    ⟨?paths, ?spans, ?others, fun id n hn => hd'.get? hn, hd'.vacant⟩, ?again⟩
  case paths =>
    have hpaths : List.Forall₂ Eq (t.recorded.map Prod.fst) (u.recorded.map Prod.fst) :=
      List.rel_map (fun _ _ hpq => hpq.1) hpairs
    rw [List.forall₂_eq_eq_eq] at hpaths
    exact hpaths.symm
  case spans =>
    intro path y hy
    obtain ⟨i, hi, hget⟩ := List.getElem_of_mem hy
    have hi' : i < t.recorded.length := hpairs.length_eq ▸ hi
    obtain ⟨hpath, hrecodes⟩ := hpairs.get hi' hi
    rw [List.get_eq_getElem, List.get_eq_getElem, hget] at hpath hrecodes
    refine ⟨t.recorded[i].2, at?_of_recorded ?_, hrecodes.form_eq, ?_⟩
    · obtain rfl : t.recorded[i].1 = path := hpath
      exact List.getElem_mem hi'
    · rw [hd'.spanOf (List.mem_map_of_mem hy)]
      have hspan := congrArg (·[i]?) hg
      simpa [recordedLabels, hi, hi', hget] using hspan
  case others =>
    intro id hid
    refine hd'.kept id fun hmem => ?_
    obtain ⟨p, hp, hlabel⟩ := List.mem_map.mp hmem
    exact hid p hp hlabel
  case again =>
    have hspans : u.recordedLabels.map d'.spanOf = u.recordedLabels.map g :=
      List.map_congr_left fun x hx => hd'.spanOf hx
    rw [putPositions_eq (hd'.tree_in hu) husound, hspans, hg]

/-- A procedure of two statements, one of them a wide literal. -/
theorem placePositions_decoded_prog :
    let a : Arena := .ofRows [some (.bare .ddecl [.int 2]), some (.bare .ddecl [.int 3]),
      some (.bare .dfluid []), some (.bare .denv []), some ⟨.sint, [.int 1099511627776], ⟨10, 14⟩,
        none, none⟩, some ⟨.nil, [], ⟨20, 23⟩, none, none⟩,
      some (.bare .seq [.code ⟨4⟩, .code ⟨5⟩]),
      some ⟨.prog, List.replicate 8 (.int 0) ++
        [.code ⟨0⟩, .code ⟨1⟩, .code ⟨2⟩, .code ⟨3⟩, .code ⟨6⟩], ⟨1, 30⟩, none, none⟩] []
    let wide : Tree NodeId := .node ⟨4⟩ .sint [.leaf (.int 1099511627776)]
    let last : Tree NodeId := .node ⟨5⟩ .nil []
    let t : Tree NodeId := .node ⟨7⟩ .prog (List.replicate 8 (.leaf (.int 0)) ++
      [.child (.node ⟨0⟩ .ddecl [.leaf (.int 2)]), .child (.node ⟨1⟩ .ddecl [.leaf (.int 3)]),
        .child (.node ⟨2⟩ .dfluid []), .child (.node ⟨3⟩ .denv []),
        .child (.node ⟨6⟩ .seq [.child wide, .child last])])
    let bytes : List UInt8 := [128, 13, 0, 0, 0, 60, 0, 0, 0, 0, 0, 0, 0, 0, 0, 0, 0, 0, 0, 0, 0, 0,
      0, 0, 0, 0, 0, 0, 0, 0, 0, 191, 2, 191, 3, 153, 154, 243, 123, 3, 0, 119, 123, 3, 0, 114, 5,
      0, 0, 2, 0, 5, 0, 0, 0, 31, 5, 0, 0, 0, 0, 0]
    a.WellFormed ∧ t.In a ∧ t.InTable ∧ encode a t.label = pure bytes ∧
      Arena.empty.Room t.form.recoded.size ∧
      t.recorded = [([], t), ([12, 0], wide), ([12, 1], last)] ∧
      ∃ (u : Tree NodeId) (d : Arena) (positions : Buffer),
      (decode.run.run (.ofList bytes)).run .empty = .ok ((.ok u.label, .mid bytes []), d) ∧ u.In d ∧
      Buffer.empty.putPositions a t.label = .ok positions ∧ ∃ c d',
        ((placePositions u.label).run.run positions.rewind).run d = .ok ((.ok (), c), d') ∧
        c.bytes = positions.bytes ∧ c.remaining = 0 ∧ Repositions a t d u d' ∧
        Buffer.empty.putPositions d' u.label = .ok positions := by
  intro a wide last t bytes
  have hw : a.WellFormed := by decide
  have ht : t.In a := by decide
  have htable : t.InTable := by decide
  have hroom : Arena.empty.Room t.form.recoded.size := by decide +kernel
  have hbytes : encode a t.label = pure bytes := by
    have hparts : (encode a t.label).toOption.bind Except.toOption = some bytes := by decide +kernel
    rcases hx : encode a t.label with m | e | v
    · rw [hx] at hparts
      cases hparts
    · rw [hx] at hparts
      cases hparts
    · rw [hx] at hparts
      obtain rfl : v = bytes := Option.some.inj hparts
      rfl
  exact ⟨hw, ht, htable, hbytes, hroom, rfl,
    placePositions_decoded hw ht htable hbytes Arena.empty_wellFormed hroom⟩

end Codec

end Foam
