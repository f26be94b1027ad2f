import Foam.Arena.Walk
import Foam.Proofs.Tree

/-!
# Counting and hashing a tree

What these walks find depends on the form of a tree alone. Counting finds its size: a node is counted
once for each path that leads to it, and the tree has it once for each path too. Hashing finds
`Tree.hash`, which takes the fields into account one by one.
-/

namespace Foam

/-- The part of a payload in the hash of its node. An absent child has none. -/
def Slot.digest (h : Hasher) : Slot → UInt32
  | .int v => v.toUInt64.toUInt32
  | .sflo b => b
  | .dflo b => Digest.fold b
  | .arb v => Digest.fold v
  | .str s => Digest.fold (h.ofString s)
  | .bint b => Digest.fold (h.ofBignum b)
  | .code _ => 0

namespace Tree

mutual
def hash (h : Hasher) : Form → UInt32
  | node _ tag fs => hashAll h (UInt32.ofNat tag.ordinal) fs
/-- Takes fields into a hash. -/
def hashAll (h : Hasher) (sum : UInt32) : List (Field Form) → UInt32
  | [] => sum
  | .leaf s :: fs => hashAll h (Arena.hashAdd sum (s.digest h)) fs
  | .child t :: fs => hashAll h (Arena.hashAdd sum (t.hash h)) fs
end

end Tree

namespace Arena

variable {a : Arena}

/-! ## Counting -/

theorem foldrM_count {f : NodeId → Checked Nat} {ts : List (Tree NodeId)}
    (hf : ∀ t ∈ ts, f t.label = .ok t.size) :
    (ts.map Tree.label).foldrM (fun c n => return n + (← f c)) 1 =
      (.ok ((ts.map Tree.size).sum + 1) : Checked Nat) := by
  induction ts with
  | nil => rfl
  | cons t ts ih =>
      rw [List.map_cons, List.foldrM_cons, ih fun u hu => hf u (List.mem_cons_of_mem _ hu)]
      show (f t.label >>= fun k => pure (_ + k)) = _
      rw [hf t List.mem_cons_self, List.map_cons, List.sum_cons, Nat.add_comm t.size,
        Nat.add_right_comm]
      rfl

theorem countFrom_eq {t : Tree NodeId} (ht : t.In a) {depth : Nat} (hd : t.height ≤ depth) :
    countFrom a depth t.label = .ok t.size := by
  induction t generalizing depth with
  | node id tag fs ih =>
      obtain ⟨d, rfl⟩ : ∃ d, depth = d + 1 :=
        ⟨depth - 1, (Nat.sub_add_cancel ((Tree.height_pos _).trans_le hd)).symm⟩
      obtain ⟨n, hn, -⟩ := ht.get?
      have hbelow : ∀ t ∈ Tree.subtrees fs, countFrom a d t.label = .ok t.size := by
        intro t hmem
        rw [Tree.mem_subtrees] at hmem
        apply ih t hmem (ht.child hmem)
        exact Nat.le_of_lt_succ ((Tree.height_lt id tag hmem).trans_le hd)
      rw [Tree.label, countFrom, children_of_get? hn, ht.children hn]
      exact (foldrM_count hbelow).trans (congrArg _ (Tree.size_node id tag fs).symm)

/-- A tree has as many nodes as its size says. -/
theorem nodeCount_eq {t : Tree NodeId} (ht : t.In a) : a.nodeCount t.label = .ok t.size := by
  rw [nodeCount, ht.label_not_null]
  exact countFrom_eq ht (Nat.le_of_lt ht.height_lt_depthBound)

theorem nodeCount_null (a : Arena) : a.nodeCount .null = .ok 0 := rfl

/-! ## Hashing -/

section Hashing

variable (h : Hasher)

theorem hashFrom_null {depth : Nat} (hd : 0 < depth) : hashFrom h a depth .null = .ok 0 := by
  obtain ⟨d, rfl⟩ := Nat.exists_eq_add_of_lt hd
  rw [Nat.zero_add, hashFrom]
  rfl

theorem hashSlot_leaf {child : NodeId → Checked UInt32} (hnull : child .null = .ok 0) {s : Slot}
    (hs : s.child? = none) : hashSlot h child s = .ok (s.digest h) := by
  cases s with
  | code c =>
      rw [null_of_child? hs]
      exact hnull
  | _ => rfl

theorem foldlM_hash {child : NodeId → Checked UInt32} {fs : List (Field (Tree NodeId))}
    (hnull : child .null = .ok 0) (hleaf : ∀ s, .leaf s ∈ fs → s.child? = none)
    (hchild : ∀ t, .child t ∈ fs → child t.label = .ok (t.form.hash h)) (sum : UInt32) :
    (fs.map Field.slot).foldlM (fun sum s => return hashAdd sum (← hashSlot h child s)) sum =
      (.ok (Tree.hashAll h sum (fs.map (Field.map Tree.form))) : Checked UInt32) := by
  induction fs generalizing sum with
  | nil => rfl
  | cons f fs ih =>
      have ih := ih (fun s hs => hleaf s (List.mem_cons_of_mem _ hs))
        (fun t ht => hchild t (List.mem_cons_of_mem _ ht))
      rw [List.map_cons, List.map_cons, List.foldlM_cons]
      cases f with
      | leaf s =>
          rw [Field.slot, hashSlot_leaf h hnull (hleaf s List.mem_cons_self), Field.map,
            Tree.hashAll]
          exact ih _
      | child t =>
          have ht : hashSlot h child (.code t.label) = .ok (t.form.hash h) :=
            hchild t List.mem_cons_self
          rw [Field.slot, ht, Field.map, Tree.hashAll]
          exact ih _

theorem hashFrom_eq {t : Tree NodeId} (ht : t.In a) {depth : Nat} (hd : t.height < depth) :
    hashFrom h a depth t.label = .ok (t.form.hash h) := by
  induction t generalizing depth with
  | node id tag fs ih =>
      obtain ⟨d, rfl⟩ : ∃ d, depth = d + 1 := ⟨depth - 1, by omega⟩
      obtain ⟨n, hn, htag, hslots⟩ := ht.get?
      -- the depth that is left is enough for a null child too
      have hpos : 0 < d := (Nat.succ_pos _).trans_le (Nat.le_of_lt_succ hd)
      have hbelow : ∀ t, .child t ∈ fs → hashFrom h a d t.label = .ok (t.form.hash h) := by
        intro t hmem
        apply ih t hmem (ht.child hmem)
        exact (Tree.height_lt id tag hmem).trans_le (Nat.le_of_lt_succ hd)
      have hid : id.isNull = false := ht.label_not_null
      rw [Tree.label, hashFrom, hid, if_neg Bool.false_ne_true, node_of_get? hn]
      show n.slots.foldlM _ (UInt32.ofNat n.tag.ordinal) = _
      rw [hslots, foldlM_hash h (hashFrom_null h hpos) (fun s hs => ht.leaf hs) hbelow, htag,
        Tree.form_node, Tree.hash]

/-- The hash of a tree is that of its form. -/
theorem hash_eq {t : Tree NodeId} (ht : t.In a) : a.hash h t.label = .ok (t.form.hash h) :=
  hashFrom_eq h ht ht.height_lt_depthBound

theorem hash_null (a : Arena) : a.hash h .null = .ok 0 := hashFrom_null h (Nat.succ_pos _)

end Hashing

end Arena

end Foam
