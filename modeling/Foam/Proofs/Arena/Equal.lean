import Foam.Arena.Equal
import Foam.Proofs.Literal.Value

/-!
# Equality of trees is equality of forms

The walk over two trees compares their forms. Strictly, they are equal exactly when the forms are the
same.
-/

namespace Foam

namespace Tree

mutual
/-- What the walk finds for two forms; `lax` asks for equality up to encoding. -/
def equal (lax : Bool) : Form → Form → Bool
  | node l tag fs, node l' tag' gs =>
    if lax && (tag == .sint || tag' == .sint) then
      (node l tag fs).literal?.isSome && (node l tag fs).literal? == (node l' tag' gs).literal?
    else tag == tag' && fs.length == gs.length && equalAll lax fs gs
def equalAll (lax : Bool) : List (Field Form) → List (Field Form) → Bool
  | .leaf s :: fs, .leaf r :: gs => s == r && equalAll lax fs gs
  | .child t :: fs, .child u :: gs => t.equal lax u && equalAll lax fs gs
  | [], [] => true
  | _, _ => false
end

theorem equalAll_false_iff {fs gs : List (Field Form)}
    (ih : ∀ t, .child t ∈ fs → ∀ u, t.equal false u = true ↔ t = u) :
    equalAll false fs gs = true ↔ fs = gs := by
  induction fs generalizing gs with
  | nil => cases gs <;> simp [equalAll]
  | cons f fs ihf =>
      have ihf := fun gs => @ihf gs fun t ht => ih t (List.mem_cons_of_mem _ ht)
      cases gs with
      | nil => cases f <;> simp [equalAll]
      | cons g gs =>
          cases f with
          | leaf s => cases g <;> simp [equalAll, ihf]
          | child t => cases g <;> simp [equalAll, ihf, ih t List.mem_cons_self]

theorem equal_false_iff {t u : Form} : t.equal false u = true ↔ t = u := by
  induction t using induct generalizing u with
  | node l tag fs ih =>
      obtain ⟨l', tag', gs⟩ := u
      have hall : equalAll false fs gs = true ↔ fs = gs :=
        equalAll_false_iff fun t ht u => ih t ht
      simp only [equal, Bool.false_and, Bool.false_eq_true, if_false, Bool.and_eq_true,
        beq_iff_eq, hall, Tree.node.injEq]
      constructor
      · rintro ⟨⟨rfl, -⟩, rfl⟩
        exact ⟨trivial, rfl, rfl⟩
      · rintro ⟨-, rfl, rfl⟩
        exact ⟨⟨rfl, rfl⟩, rfl⟩

end Tree

namespace Arena

/-- The comparison of two slots in the walk. -/
def slotEqual (node : NodeId → NodeId → Checked Bool) : Slot × Slot → Checked Bool
  | (.code c, .code d) => node c d
  | (s, t) => return s == t

variable {lax : Bool} {a b : Arena}

theorem equalFrom_null {depth : Nat} {x y : NodeId} (hd : 0 < depth)
    (h : x.isNull = true ∨ y.isNull = true) :
    equalFrom lax a b depth x y = .ok (x.isNull && y.isNull) := by
  obtain ⟨d, rfl⟩ := Nat.exists_eq_add_of_lt hd
  have hor : (x.isNull || y.isNull) = true := by simpa using h
  rw [Nat.zero_add, equalFrom, if_pos hor]
  rfl

theorem equalFrom_succ {depth : Nat} {x y : NodeId} {m n : Node} (hx : x.isNull = false)
    (hy : y.isNull = false) (hm : a.get? x = some m) (hn : b.get? y = some n) :
    equalFrom lax a b (depth + 1) x y =
      if lax && (m.tag == .sint || n.tag == .sint) then do
        let v ← a.literal? x
        let w ← b.literal? y
        return v.isSome && v == w
      else if m.tag != n.tag || m.slots.length != n.slots.length then return false
      else (m.slots.zip n.slots).allM (slotEqual (equalFrom lax a b depth)) := by
  rw [equalFrom, hx, hy, node_of_get? hm, node_of_get? hn]
  rfl

/-- Two payloads compare as such, whatever the walk does with children that are present. -/
theorem slotEqual_leaf {depth : Nat} {s r : Slot} (hd : 0 < depth) (hs : s.child? = none)
    (hr : r.child? = none) : slotEqual (equalFrom lax a b depth) (s, r) = .ok (s == r) := by
  cases s with
  | code c =>
      cases r with
      | code d =>
          rw [slotEqual, equalFrom_null hd (.inl (by rw [null_of_child? hs]; rfl)),
            null_of_child? hs, null_of_child? hr]
          rfl
      | _ => rfl
  | _ => cases r <;> rfl

theorem slotEqual_child_leaf {depth : Nat} {c : NodeId} {s : Slot} (hd : 0 < depth)
    (hc : c.isNull = false) (hs : s.child? = none) :
    slotEqual (equalFrom lax a b depth) (.code c, s) = .ok false := by
  cases s with
  | code d =>
      have hnull : d.isNull = true := by
        rw [null_of_child? hs]
        rfl
      rw [slotEqual, equalFrom_null hd (.inr hnull), hc]
      rfl
  | _ => rfl

theorem slotEqual_leaf_child {depth : Nat} {d : NodeId} {s : Slot} (hnull : 0 < depth)
    (hd : d.isNull = false) (hs : s.child? = none) :
    slotEqual (equalFrom lax a b depth) (s, .code d) = .ok false := by
  cases s with
  | code c =>
      have hc : c.isNull = true := by
        rw [null_of_child? hs]
        rfl
      rw [slotEqual, equalFrom_null hnull (.inl hc), hd, Bool.and_false]
  | _ => rfl

theorem allM_slotEqual {depth : Nat} {fs gs : List (Field (Tree NodeId))} (hd : 0 < depth)
    (hlen : fs.length = gs.length)
    (hf : ∀ s, .leaf s ∈ fs → s.child? = none) (hg : ∀ s, .leaf s ∈ gs → s.child? = none)
    (hfn : ∀ t : Tree NodeId, .child t ∈ fs → t.label.isNull = false)
    (hgn : ∀ t : Tree NodeId, .child t ∈ gs → t.label.isNull = false)
    (ih : ∀ t, .child t ∈ fs → ∀ u, .child u ∈ gs →
      equalFrom lax a b depth t.label u.label = .ok (t.form.equal lax u.form)) :
    ((fs.map Field.slot).zip (gs.map Field.slot)).allM (slotEqual (equalFrom lax a b depth)) =
      .ok (Tree.equalAll lax (fs.map (Field.map Tree.form)) (gs.map (Field.map Tree.form))) := by
  induction fs generalizing gs with
  | nil =>
      obtain rfl := List.length_eq_zero_iff.mp hlen.symm
      rfl
  | cons f fs ihf =>
      obtain ⟨g, gs, rfl⟩ := List.exists_cons_of_length_eq_add_one hlen.symm
      have ihf := ihf (Nat.succ.inj hlen)
        (fun s hs => hf s (List.mem_cons_of_mem _ hs))
        (fun s hs => hg s (List.mem_cons_of_mem _ hs))
        (fun t ht => hfn t (List.mem_cons_of_mem _ ht))
        (fun t ht => hgn t (List.mem_cons_of_mem _ ht))
        (fun t ht u hu => ih t (List.mem_cons_of_mem _ ht) u (List.mem_cons_of_mem _ hu))
      have hstep : ∀ v : Bool, slotEqual (equalFrom lax a b depth) (f.slot, g.slot) = .ok v →
          (((f :: fs).map Field.slot).zip ((g :: gs).map Field.slot)).allM
            (slotEqual (equalFrom lax a b depth)) = .ok (v &&
              Tree.equalAll lax (fs.map (Field.map Tree.form)) (gs.map (Field.map Tree.form))) := by
        intro v hv
        rw [List.map_cons, List.map_cons, List.zip_cons_cons, List.allM, hv]
        cases v with
        | false => rfl
        | true => exact ihf
      cases f with
      | leaf s =>
          have hs := hf s List.mem_cons_self
          cases g with
          | leaf r => exact hstep _ (slotEqual_leaf hd hs (hg r List.mem_cons_self))
          | child u => exact hstep _ (slotEqual_leaf_child hd (hgn u List.mem_cons_self) hs)
      | child t =>
          cases g with
          | leaf r =>
              exact hstep _ (slotEqual_child_leaf hd (hfn t List.mem_cons_self)
                (hg r List.mem_cons_self))
          | child u => exact hstep _ (ih t List.mem_cons_self u List.mem_cons_self)

/-- The walk over two trees compares their forms. -/
theorem equalFrom_eq {t u : Tree NodeId} (hwa : a.WellFormed) (hwb : b.WellFormed) (ht : t.In a)
    (hu : u.In b) {depth : Nat} (hd : t.height < depth) :
    equalFrom lax a b depth t.label u.label = .ok (t.form.equal lax u.form) := by
  induction t generalizing u depth with
  | node id tag fs ih =>
      obtain ⟨i, tag', gs⟩ := u
      obtain ⟨d, rfl⟩ : ∃ d, depth = d + 1 := ⟨depth - 1, by omega⟩
      have hpos : 0 < d := by
        have : (Tree.node id tag fs).height = Tree.heightAll fs + 1 := rfl
        omega
      obtain ⟨m, hm, hmtag, hmslots⟩ := ht.get?
      obtain ⟨n, hn, hntag, hnslots⟩ := hu.get?
      have hid : id.isNull = false := ht.label_not_null
      have hi : i.isNull = false := hu.label_not_null
      rw [Tree.label, Tree.label, equalFrom_succ hid hi hm hn, hmtag,
        hntag, hmslots, hnslots, Tree.form_node, Tree.form_node, Tree.equal]
      simp only [List.length_map]
      -- up to encoding, a literal on either side is compared by value
      by_cases hlax : (lax && (tag == .sint || tag' == .sint)) = true
      · rw [if_pos hlax, if_pos hlax, ← Tree.form_node id, ← Tree.form_node i]
        have hv : a.literal? id = .ok (Tree.node id tag fs).form.literal? := literal?_eq hwa ht
        have hw : b.literal? i = .ok (Tree.node i tag' gs).form.literal? := literal?_eq hwb hu
        rw [hv, hw]
        rfl
      · rw [if_neg hlax, if_neg hlax]
        by_cases htag : tag = tag'
        · by_cases hlen : fs.length = gs.length
          · have hne : (tag != tag' || fs.length != gs.length) = false := by simp [htag, hlen]
            have heq : (tag == tag' && fs.length == gs.length) = true := by simp [htag, hlen]
            rw [hne, heq, Bool.true_and]
            refine allM_slotEqual hpos hlen (fun s hs => ht.leaf hs) (fun s hs => hu.leaf hs)
              (fun t h => (ht.child h).label_not_null) (fun t h => (hu.child h).label_not_null)
              fun t h u h' => ih t h (ht.child h) (hu.child h') ?_
            have := Tree.height_lt id tag h
            omega
          · have hne : (tag != tag' || fs.length != gs.length) = true := by simp [hlen]
            have heq : (tag == tag' && fs.length == gs.length) = false := by simp [hlen]
            rw [hne, heq]
            rfl
        · have hne : (tag != tag' || fs.length != gs.length) = true := by simp [htag]
          have heq : (tag == tag' && fs.length == gs.length) = false := by simp [htag]
          rw [hne, heq]
          rfl

theorem height_lt_pairBound {t : Tree NodeId} (ht : t.In a) : t.height < pairBound a b :=
  Nat.lt_of_lt_of_le ht.height_lt_depthBound (Nat.le_mul_of_pos_right _ (Nat.succ_pos _))

/-- Trees are equal exactly if they have the same form. -/
theorem equal_eq {t u : Tree NodeId} (hwa : a.WellFormed) (hwb : b.WellFormed) (ht : t.In a)
    (hu : u.In b) : a.equal t.label b u.label = .ok (t.form.equal false u.form) :=
  equalFrom_eq hwa hwb ht hu (height_lt_pairBound ht)

theorem equal_of_form {t u : Tree NodeId} (hwa : a.WellFormed) (hwb : b.WellFormed) (ht : t.In a)
    (hu : u.In b) (h : t.form = u.form) : a.equal t.label b u.label = .ok true := by
  rw [equal_eq hwa hwb ht hu, h, Tree.equal_false_iff.mpr rfl]

theorem equalUpToEncoding_eq {t u : Tree NodeId} (hwa : a.WellFormed) (hwb : b.WellFormed)
    (ht : t.In a) (hu : u.In b) :
    a.equalUpToEncoding t.label b u.label = .ok (t.form.equal true u.form) :=
  equalFrom_eq hwa hwb ht hu (height_lt_pairBound ht)

end Arena

end Foam
