import Foam.Proofs.Arena.WellFormed
import Mathlib.Algebra.GroupWithZero.Nat
import Mathlib.Data.Fintype.Card

/-!
# The tree under a node

A live node of an arena stands for a tree: its tag, and slot by slot a payload or the tree of a
child. The trees here are inductive data with a label at every node. Labelled with ids a tree says
where in an arena it stands (`Tree.In`), and then its labels in order are the nodes that a walk
meets. Without labels it is a *form*: what two copies of a tree have in common.

Whatever stands in an arena is lower than the arena has rows, shared nodes or not
(`height_le_capacity`), so the depth bounds of the walks are never reached on a tree.
-/

namespace Foam

/-- What one slot of a tree holds. An absent child is a payload. -/
inductive Field (τ : Type)
  | leaf (s : Slot)
  | child (t : τ)

namespace Field

variable {τ σ : Type}

def map (f : τ → σ) : Field τ → Field σ
  | leaf s => leaf s
  | child t => child (f t)

def child? : Field τ → Option τ
  | leaf _ => none
  | child t => some t

/-- The payload, a null child in place of a child. -/
def blank : Field τ → Slot
  | leaf s => s
  | child _ => .code .null

@[simp] theorem blank_map (f : τ → σ) (x : Field τ) : (x.map f).blank = x.blank := by
  cases x <;> rfl

@[simp] theorem blank_comp_map (f : τ → σ) : (blank ∘ map f : Field τ → Slot) = blank :=
  funext (blank_map f)

end Field

/-- Distinct things can be given any names. -/
theorem exists_map_eq {α β : Type} [DecidableEq α] [Nonempty β] {xs : List α} {ys : List β}
    (hnd : xs.Nodup) (hlen : xs.length = ys.length) : ∃ g : α → β, xs.map g = ys := by
  induction xs generalizing ys with
  | nil => exact ⟨fun _ => Classical.ofNonempty, (List.length_eq_zero_iff.mp hlen.symm).symm⟩
  | cons x xs ih =>
      obtain ⟨y, ys, rfl⟩ := List.exists_cons_of_length_eq_add_one hlen.symm
      obtain ⟨hx, hnd⟩ := List.nodup_cons.mp hnd
      obtain ⟨g, rfl⟩ := ih hnd (Nat.succ.inj hlen)
      refine ⟨Function.update g x y, ?_⟩
      rw [List.map_cons, Function.update_self]
      congr 1
      refine List.map_congr_left fun z hz => Function.update_of_ne ?_ _ _
      rintro rfl
      exact hx hz

inductive Tree (α : Type)
  | node (label : α) (tag : Tag) (fields : List (Field (Tree α)))

/-- A tree as such, wherever it stands. -/
abbrev Form := Tree Unit

namespace Tree

variable {α : Type}

/-! ## Parts of a tree -/

def label : Tree α → α
  | node l _ _ => l

def tag : Tree α → Tag
  | node _ t _ => t

def fields : Tree α → List (Field (Tree α))
  | node _ _ fs => fs

/-- The children among some fields. -/
def subtrees (fs : List (Field (Tree α))) : List (Tree α) := fs.filterMap Field.child?

@[simp] theorem subtrees_nil : subtrees ([] : List (Field (Tree α))) = [] := rfl

@[simp] theorem subtrees_leaf (s : Slot) (fs : List (Field (Tree α))) :
    subtrees (.leaf s :: fs) = subtrees fs := rfl

@[simp] theorem subtrees_child (t : Tree α) (fs : List (Field (Tree α))) :
    subtrees (.child t :: fs) = t :: subtrees fs := rfl

@[simp] theorem subtrees_append (fs gs : List (Field (Tree α))) :
    subtrees (fs ++ gs) = subtrees fs ++ subtrees gs := by
  simp [subtrees]

@[simp] theorem mem_subtrees {t : Tree α} {fs : List (Field (Tree α))} :
    t ∈ subtrees fs ↔ .child t ∈ fs := by
  induction fs with
  | nil => simp
  | cons f fs ih => cases f <;> simp [ih]

theorem child_mem_map {β : Type} {f : Tree α → Tree β} {fs : List (Field (Tree α))} {u : Tree β} :
    .child u ∈ fs.map (Field.map f) ↔ ∃ t, .child t ∈ fs ∧ f t = u := by
  induction fs with
  | nil => simp
  | cons x fs ih => cases x <;> simp [Field.map, ih, eq_comm]

/-- A property holds of a tree if it passes from the children of a node to the node. -/
@[induction_eliminator]
theorem induct {P : Tree α → Prop}
    (node : ∀ l tag fs, (∀ t, .child t ∈ fs → P t) → P (node l tag fs)) : ∀ t, P t
  | .node l tag fs => node l tag fs (inFields fs)
where
  inFields : ∀ (fs : List (Field (Tree α))) (t : Tree α), .child t ∈ fs → P t
    | [], _, h => by cases h
    | .leaf _ :: fs, t, h => inFields fs t (by simpa using h)
    | .child u :: fs, t, h => by
        rcases List.mem_cons.mp h with h | h
        · cases h
          exact induct node u
        · exact inFields fs t h

mutual
def size : Tree α → Nat
  | node _ _ fs => sizeAll fs + 1
def sizeAll : List (Field (Tree α)) → Nat
  | [] => 0
  | .leaf _ :: fs => sizeAll fs
  | .child t :: fs => t.size + sizeAll fs
end

mutual
/-- The labels of a tree, that of a node before those under it. -/
def labels : Tree α → List α
  | node l _ fs => l :: labelsAll fs
def labelsAll : List (Field (Tree α)) → List α
  | [] => []
  | .leaf _ :: fs => labelsAll fs
  | .child t :: fs => t.labels ++ labelsAll fs
end

mutual
def height : Tree α → Nat
  | node _ _ fs => heightAll fs + 1
def heightAll : List (Field (Tree α)) → Nat
  | [] => 0
  | .leaf _ :: fs => heightAll fs
  | .child t :: fs => max t.height (heightAll fs)
end

mutual
def form : Tree α → Form
  | node _ tag fs => node () tag (formAll fs)
def formAll : List (Field (Tree α)) → List (Field Form)
  | [] => []
  | .leaf s :: fs => .leaf s :: formAll fs
  | .child t :: fs => .child t.form :: formAll fs
end

theorem sizeAll_eq (fs : List (Field (Tree α))) : sizeAll fs = ((subtrees fs).map size).sum := by
  induction fs with
  | nil => rfl
  | cons f fs ih => cases f <;> simp [sizeAll, ih]

theorem sizeAll_cons (f : Field (Tree α)) (fs : List (Field (Tree α))) :
    sizeAll (f :: fs) = sizeAll [f] + sizeAll fs := by
  cases f <;> simp [sizeAll]

theorem labelsAll_eq (fs : List (Field (Tree α))) :
    labelsAll fs = (subtrees fs).flatMap labels := by
  induction fs with
  | nil => rfl
  | cons f fs ih => cases f <;> simp [labelsAll, ih]

theorem formAll_eq (fs : List (Field (Tree α))) : formAll fs = fs.map (Field.map form) := by
  induction fs with
  | nil => rfl
  | cons f fs ih => cases f <;> simp [formAll, ih, Field.map]

@[simp] theorem size_node (l : α) (tag : Tag) (fs : List (Field (Tree α))) :
    (node l tag fs).size = ((subtrees fs).map size).sum + 1 := by
  rw [size, sizeAll_eq]

@[simp] theorem labels_node (l : α) (tag : Tag) (fs : List (Field (Tree α))) :
    (node l tag fs).labels = l :: (subtrees fs).flatMap labels := by
  rw [labels, labelsAll_eq]

@[simp] theorem form_node (l : α) (tag : Tag) (fs : List (Field (Tree α))) :
    (node l tag fs).form = node () tag (fs.map (Field.map form)) := by
  rw [form, formAll_eq]

theorem length_labels (t : Tree α) : t.labels.length = t.size := by
  induction t with
  | node l tag fs ih =>
      simp only [labels_node, List.length_cons, List.length_flatMap, size_node]
      congr 2
      exact List.map_congr_left fun t ht => ih t (mem_subtrees.mp ht)

theorem length_labelsAll (fs : List (Field (Tree α))) :
    ((subtrees fs).flatMap labels).length = sizeAll fs := by
  rw [sizeAll_eq, List.length_flatMap]
  exact congrArg List.sum (List.map_congr_left fun t _ => length_labels t)

theorem label_mem_labels (t : Tree α) : t.label ∈ t.labels := by
  cases t
  simp [label]

theorem labels_subset {t : Tree α} {l : α} {tag : Tag} {fs : List (Field (Tree α))}
    (h : .child t ∈ fs) : t.labels ⊆ (node l tag fs).labels := by
  intro x hx
  rw [labels_node]
  exact List.mem_cons_of_mem _ (List.mem_flatMap.mpr ⟨t, mem_subtrees.mpr h, hx⟩)

@[simp] theorem subtrees_map_form (fs : List (Field (Tree α))) :
    subtrees (fs.map (Field.map form)) = (subtrees fs).map form := by
  induction fs with
  | nil => rfl
  | cons f fs ih => cases f <;> simp [Field.map, ih]

@[simp] theorem size_form (t : Tree α) : t.form.size = t.size := by
  induction t with
  | node l tag fs ih =>
      simp only [form_node, size_node, subtrees_map_form, List.map_map]
      congr 2
      exact List.map_congr_left fun t ht => ih t (mem_subtrees.mp ht)

theorem sizeAll_map_form (fs : List (Field (Tree α))) :
    sizeAll (fs.map (Field.map form)) = sizeAll fs := by
  rw [sizeAll_eq, sizeAll_eq, subtrees_map_form, List.map_map]
  exact congrArg List.sum (List.map_congr_left fun t _ => size_form t)

theorem height_le_heightAll {t : Tree α} {fs : List (Field (Tree α))} (h : .child t ∈ fs) :
    t.height ≤ heightAll fs := by
  induction fs with
  | nil => cases h
  | cons f fs ih =>
      cases f with
      | leaf s => exact ih (by simpa using h)
      | child u =>
          rw [heightAll]
          rcases List.mem_cons.mp h with h | h
          · cases h
            exact Nat.le_max_left ..
          · exact Nat.le_trans (ih h) (Nat.le_max_right ..)

theorem height_lt (l : α) (tag : Tag) {t : Tree α} {fs : List (Field (Tree α))}
    (h : .child t ∈ fs) : t.height < (node l tag fs).height :=
  Nat.lt_succ_of_le (height_le_heightAll h)

theorem height_pos (t : Tree α) : 0 < t.height := by
  cases t
  exact Nat.succ_pos _

theorem heightAll_le {n : Nat} {fs : List (Field (Tree α))}
    (h : ∀ t, .child t ∈ fs → t.height ≤ n) : heightAll fs ≤ n := by
  induction fs with
  | nil => exact Nat.zero_le n
  | cons f fs ih =>
      have ih := ih fun t ht => h t (List.mem_cons_of_mem _ ht)
      cases f with
      | leaf s => exact ih
      | child u => exact Nat.max_le.mpr ⟨h u List.mem_cons_self, ih⟩

theorem size_le_sizeAll {t : Tree α} {fs : List (Field (Tree α))} (h : .child t ∈ fs) :
    t.size ≤ sizeAll fs := by
  induction fs with
  | nil => cases h
  | cons f fs ih =>
      rw [sizeAll_cons]
      rcases List.mem_cons.mp h with rfl | h
      · exact Nat.le_add_right ..
      · exact Nat.le_trans (ih h) (Nat.le_add_left ..)

theorem height_le_size (t : Tree α) : t.height ≤ t.size := by
  induction t with
  | node l tag fs ih =>
      exact Nat.succ_le_succ (heightAll_le fun t ht => (ih t ht).trans (size_le_sizeAll ht))

/-- Some child reaches the height of its siblings. -/
theorem exists_child_height {fs : List (Field (Tree α))}
    (h : 0 < heightAll fs) : ∃ t, .child t ∈ fs ∧ t.height = heightAll fs := by
  induction fs with
  | nil => exact absurd h (Nat.lt_irrefl 0)
  | cons f fs ih =>
      cases f with
      | leaf s =>
          obtain ⟨t, ht, he⟩ := ih h
          exact ⟨t, List.mem_cons_of_mem _ ht, he⟩
      | child u =>
          rw [heightAll] at h ⊢
          by_cases hu : heightAll fs ≤ u.height
          · exact ⟨u, List.mem_cons_self, (Nat.max_eq_left hu).symm⟩
          · have hlt : u.height < heightAll fs := Nat.lt_of_not_le hu
            obtain ⟨t, ht, he⟩ := ih (Nat.zero_lt_of_lt hlt)
            exact ⟨t, List.mem_cons_of_mem _ ht, by rw [he, Nat.max_eq_right (Nat.le_of_lt hlt)]⟩

/-! ## Relabelling -/

section Relabelling

variable {β : Type}

mutual
def map (f : α → β) : Tree α → Tree β
  | node l tag fs => node (f l) tag (mapAll f fs)
def mapAll (f : α → β) : List (Field (Tree α)) → List (Field (Tree β))
  | [] => []
  | .leaf s :: fs => .leaf s :: mapAll f fs
  | .child t :: fs => .child (t.map f) :: mapAll f fs
end

theorem mapAll_eq (f : α → β) (fs : List (Field (Tree α))) :
    mapAll f fs = fs.map (Field.map (map f)) := by
  induction fs with
  | nil => rfl
  | cons x fs ih => cases x <;> simp [mapAll, ih, Field.map]

@[simp] theorem map_node (f : α → β) (l : α) (tag : Tag) (fs : List (Field (Tree α))) :
    (node l tag fs).map f = node (f l) tag (fs.map (Field.map (map f))) := by
  rw [map, mapAll_eq]

@[simp] theorem label_map (f : α → β) (t : Tree α) : (t.map f).label = f t.label := by
  cases t
  rw [map_node, label, label]

theorem fields_eq_of_form_of_labels {fs gs : List (Field (Tree α))}
    (ih : ∀ t, .child t ∈ fs → ∀ u : Tree α, t.form = u.form → t.labels = u.labels → t = u)
    (hform : fs.map (Field.map form) = gs.map (Field.map form))
    (hlabels : (subtrees fs).flatMap labels = (subtrees gs).flatMap labels) : fs = gs := by
  induction fs generalizing gs with
  | nil => exact (List.map_eq_nil_iff.mp hform.symm).symm
  | cons f fs ihf =>
      cases gs with
      | nil => cases hform
      | cons g gs =>
          rw [List.map_cons, List.map_cons, List.cons.injEq] at hform
          have hrest : (subtrees fs).flatMap labels = (subtrees gs).flatMap labels → fs = gs :=
            ihf (fun t ht => ih t (List.mem_cons_of_mem _ ht)) hform.2
          rcases f with s | t <;> rcases g with r | u
          · rw [hrest hlabels, show s = r from Field.leaf.inj hform.1]
          · cases hform.1
          · cases hform.1
          · have hchild : t.form = u.form := Field.child.inj hform.1
            -- trees of one form have equally many labels, so the lists of labels split alike
            have hlen : t.labels.length = u.labels.length := by
              rw [length_labels, length_labels, ← size_form, hchild, size_form]
            obtain ⟨htu, hlabels⟩ := List.append_inj hlabels hlen
            rw [hrest hlabels, ih t List.mem_cons_self u hchild htu]

/-- A tree is given by its form and its labels. -/
theorem eq_of_form_of_labels {t u : Tree α} (hform : t.form = u.form)
    (hlabels : t.labels = u.labels) : t = u := by
  induction t generalizing u with
  | node l tag fs ih =>
      obtain ⟨l', tag', gs⟩ := u
      rw [form_node, form_node, node.injEq] at hform
      obtain ⟨-, rfl, hform⟩ := hform
      rw [labels_node, labels_node, List.cons.injEq] at hlabels
      obtain ⟨rfl, hlabels⟩ := hlabels
      have hfs : fs = gs := by
        apply fields_eq_of_form_of_labels _ hform hlabels
        intro t ht u hform hlabels
        exact ih t ht hform hlabels
      rw [hfs]

theorem form_map (f : α → β) (t : Tree α) : (t.map f).form = t.form := by
  induction t with
  | node l tag fs ih =>
      rw [map_node, form_node, form_node, List.map_map]
      congr 1
      apply List.map_congr_left
      intro x hx
      cases x with
      | leaf s => rfl
      | child t => exact congrArg Field.child (ih t hx)

theorem subtrees_map (f : α → β) (fs : List (Field (Tree α))) :
    subtrees (fs.map (Field.map (map f))) = (subtrees fs).map (map f) := by
  induction fs with
  | nil => rfl
  | cons x fs ih => cases x <;> simp [Field.map, ih]

theorem labels_map (f : α → β) (t : Tree α) : (t.map f).labels = t.labels.map f := by
  induction t with
  | node l tag fs ih =>
      rw [map_node, labels_node, labels_node, subtrees_map, List.map_cons, List.flatMap_map,
        List.map_flatMap]
      congr 1
      exact List.flatMap_congr fun t ht => ih t (mem_subtrees.mp ht)

end Relabelling

/-! ## Properties of every subtree -/

/-- Every subtree has the property, the tree itself among them. -/
inductive Every (P : Tree α → Prop) : Tree α → Prop
  | node {l : α} {tag : Tag} {fs : List (Field (Tree α))} : P (node l tag fs) →
      (∀ t, .child t ∈ fs → Every P t) → Every P (node l tag fs)

theorem every_node {P : Tree α → Prop} {l : α} {tag : Tag} {fs : List (Field (Tree α))} :
    Every P (node l tag fs) ↔ P (node l tag fs) ∧ ∀ t, .child t ∈ fs → Every P t := by
  constructor
  · rintro ⟨here, below⟩
    exact ⟨here, below⟩
  · rintro ⟨here, below⟩
    exact .node here below

theorem Every.here {P : Tree α → Prop} {t : Tree α} (h : t.Every P) : P t := by
  cases h
  assumption

theorem Every.imp {P Q : Tree α → Prop} (hPQ : ∀ t, P t → Q t) {t : Tree α} (h : t.Every P) :
    t.Every Q := by
  induction h with
  | node here _ ih => exact .node (hPQ _ here) ih

instance Every.decidable (P : Tree α → Prop) [DecidablePred P] :
    ∀ t : Tree α, Decidable (t.Every P)
  | .node _ _ fs =>
      have := inFields fs
      decidable_of_iff _ every_node.symm
where
  inFields : ∀ fs : List (Field (Tree α)), Decidable (∀ t : Tree α, .child t ∈ fs → t.Every P)
    | [] => .isTrue fun _ h => absurd h List.not_mem_nil
    | .leaf _ :: fs =>
        have := inFields fs
        decidable_of_iff (∀ t : Tree α, .child t ∈ fs → t.Every P) (by simp)
    | .child u :: fs =>
        have := inFields fs
        have := Every.decidable P u
        decidable_of_iff (u.Every P ∧ ∀ t : Tree α, .child t ∈ fs → t.Every P) (by simp)

end Tree

/-! ## Trees in an arena -/

/-- What the slot of a located node holds: for a child, its id. -/
def Field.slot : Field (Tree NodeId) → Slot
  | leaf s => s
  | child t => .code t.label

namespace Tree

/-- The root stands in the arena under its label, with the payloads and children it has here. -/
def Stored (a : Arena) (t : Tree NodeId) : Prop :=
  t.label.isNull = false ∧ (∀ s, .leaf s ∈ t.fields → s.child? = none) ∧
    ∃ n, a.get? t.label = some n ∧ n.tag = t.tag ∧ n.slots = t.fields.map Field.slot

theorem stored_iff {a : Arena} {t : Tree NodeId} : Stored a t ↔ t.label.isNull = false ∧
    (∀ f ∈ t.fields, f.blank.child? = none) ∧
    (a.get? t.label).any fun n => n.tag == t.tag && n.slots == t.fields.map Field.slot := by
  have hleaf : (∀ s, .leaf s ∈ t.fields → s.child? = none) ↔
      ∀ f ∈ t.fields, f.blank.child? = none := by
    constructor
    · intro h f hf
      cases f with
      | leaf s => exact h s hf
      | child u => rfl
    · exact fun h s hs => h _ hs
  simp [Stored, hleaf, Option.any_eq_true]

instance (a : Arena) (t : Tree NodeId) : Decidable (Stored a t) := decidable_of_iff' _ stored_iff

/-- The tree stands in the arena. A node of the arena under which no path is endless and no id dead
is the root of such a tree. -/
def In (a : Arena) (t : Tree NodeId) : Prop := t.Every (Stored a)

instance (a : Arena) (t : Tree NodeId) : Decidable (t.In a) :=
  inferInstanceAs (Decidable (t.Every (Stored a)))

variable {a b : Arena} {id : NodeId} {tag : Tag} {fs : List (Field (Tree NodeId))}

theorem In.child {t : Tree NodeId} (h : (node id tag fs).In a) (ht : .child t ∈ fs) : t.In a :=
  (every_node.mp h).2 t ht

theorem In.label_not_null {t : Tree NodeId} (h : t.In a) : t.label.isNull = false := h.here.1

theorem In.leaf {s : Slot} (h : (node id tag fs).In a) (hs : .leaf s ∈ fs) : s.child? = none :=
  h.here.2.1 s hs

theorem In.get? (h : (node id tag fs).In a) :
    ∃ n, a.get? id = some n ∧ n.tag = tag ∧ n.slots = fs.map Field.slot := h.here.2.2

theorem in_of_eq (hn : id.isNull = false) {n : Node} (hg : a.get? id = some n) (htag : n.tag = tag)
    (hslots : n.slots = fs.map Field.slot) (hleaf : ∀ s, .leaf s ∈ fs → s.child? = none)
    (hchild : ∀ t, .child t ∈ fs → t.In a) : (node id tag fs).In a :=
  .node ⟨hn, hleaf, n, hg, htag, hslots⟩ hchild

/-- Where a tree stands depends on its own nodes only. -/
theorem In.congr {t : Tree NodeId} (h : t.In a) (hab : ∀ x ∈ t.labels, b.get? x = a.get? x) :
    t.In b := by
  induction h with
  | @node id tag fs here _ ih =>
      obtain ⟨hn, hleaf, n, hg, htag, hslots⟩ := here
      have hroot : b.get? id = some n := by rw [hab id (label_mem_labels _)]; exact hg
      refine .node ⟨hn, hleaf, n, hroot, htag, hslots⟩ ?_
      intro t ht
      apply ih t ht
      intro x hx
      exact hab x (labels_subset ht hx)

theorem filterMap_child?_slots (hleaf : ∀ s, .leaf s ∈ fs → s.child? = none)
    (hnull : ∀ t : Tree NodeId, .child t ∈ fs → t.label.isNull = false) :
    (fs.map Field.slot).filterMap Slot.child? = (subtrees fs).map label := by
  induction fs with
  | nil => rfl
  | cons f fs ih =>
      have ih := ih (fun s hs => hleaf s (List.mem_cons_of_mem _ hs))
        (fun t ht => hnull t (List.mem_cons_of_mem _ ht))
      cases f with
      | leaf s =>
          have hs : (Field.slot (.leaf s)).child? = none := hleaf s List.mem_cons_self
          rw [List.map_cons, List.filterMap_cons_none hs, ih]
          rfl
      | child t =>
          have ht : (Field.slot (.child t)).child? = some t.label := by
            simp [Field.slot, Slot.child?, hnull t List.mem_cons_self]
          rw [List.map_cons, List.filterMap_cons_some ht, ih]
          rfl

theorem In.children {n : Node} (h : (node id tag fs).In a) (hg : a.get? id = some n) :
    n.children = (subtrees fs).map label := by
  obtain ⟨m, hm, -, hslots⟩ := h.get?
  obtain rfl : n = m := Option.some.inj (hg.symm.trans hm)
  rw [Node.children, hslots]
  exact filterMap_child?_slots (fun s hs => h.leaf hs) fun t ht => (h.child ht).label_not_null

theorem mem_labels_live {t : Tree NodeId} (h : t.In a) {x : NodeId} (hx : x ∈ t.labels) :
    x.isNull = false ∧ ∃ n, a.get? x = some n := by
  induction h with
  | @node id tag fs here _ ih =>
      rw [labels_node] at hx
      rcases List.mem_cons.mp hx with rfl | hx
      · obtain ⟨hn, -, n, hg, -⟩ := here
        exact ⟨hn, n, hg⟩
      · obtain ⟨t, ht, hx⟩ := List.mem_flatMap.mp hx
        exact ih t (mem_subtrees.mp ht) hx

/-! ## One tree for one node -/

theorem fields_unique {fs gs : List (Field (Tree NodeId))}
    (ih : ∀ t, .child t ∈ fs → ∀ u : Tree NodeId, .child u ∈ gs → t.label = u.label → t = u)
    (hf : ∀ s, .leaf s ∈ fs → s.child? = none) (hg : ∀ s, .leaf s ∈ gs → s.child? = none)
    (hfn : ∀ t : Tree NodeId, .child t ∈ fs → t.label.isNull = false)
    (hgn : ∀ t : Tree NodeId, .child t ∈ gs → t.label.isNull = false)
    (h : fs.map Field.slot = gs.map Field.slot) : fs = gs := by
  induction fs generalizing gs with
  | nil => exact (List.map_eq_nil_iff.mp h.symm).symm
  | cons f fs ihf =>
      cases gs with
      | nil => simp at h
      | cons g gs =>
          rw [List.map_cons, List.map_cons, List.cons.injEq] at h
          have htail : fs = gs := ihf
            (fun t ht u hu => ih t (List.mem_cons_of_mem _ ht) u (List.mem_cons_of_mem _ hu))
            (fun s hs => hf s (List.mem_cons_of_mem _ hs))
            (fun s hs => hg s (List.mem_cons_of_mem _ hs))
            (fun t ht => hfn t (List.mem_cons_of_mem _ ht))
            (fun t ht => hgn t (List.mem_cons_of_mem _ ht)) h.2
          subst htail
          -- A leaf never holds the id of a child, so equal slots are fields of one sort.
          rcases f with s | t <;> rcases g with r | u
          · rw [show s = r from h.1]
          · have hs := hf s List.mem_cons_self
            rw [show s = .code u.label from h.1] at hs
            simp [Slot.child?, hgn u List.mem_cons_self] at hs
          · have hr := hg r List.mem_cons_self
            rw [show r = .code t.label from h.1.symm] at hr
            simp [Slot.child?, hfn t List.mem_cons_self] at hr
          · have hl : t.label = u.label := Slot.code.inj h.1
            rw [ih t List.mem_cons_self u List.mem_cons_self hl]

theorem In.unique {t u : Tree NodeId} (ht : t.In a) (hu : u.In a) (h : t.label = u.label) :
    t = u := by
  induction ht generalizing u with
  | @node id tag fs here below ih =>
      obtain ⟨i, ug, gs⟩ := u
      obtain rfl : id = i := h
      obtain ⟨-, hf, n, hn, htag, hslots⟩ := here
      obtain ⟨m, hm, hmtag, hmslots⟩ := hu.get?
      obtain rfl : n = m := Option.some.inj (hn.symm.trans hm)
      obtain rfl : tag = ug := htag.symm.trans hmtag
      -- the node under the label gives the tag and the slots, and these the children
      have hfs : fs = gs := fields_unique (fun t ht u hu' he => ih t ht (hu.child hu') he) hf
        (fun s hs => hu.leaf hs) (fun t ht => In.label_not_null (below t ht))
        (fun t ht => (hu.child ht).label_not_null) (hslots.symm.trans hmslots)
      rw [hfs]

/-! ## No tree is higher than its arena is large -/

theorem In.exists_of_height {t : Tree NodeId} (h : t.In a) {k : Nat} (hk : 0 < k)
    (hkt : k ≤ t.height) : ∃ u : Tree NodeId, u.In a ∧ u.height = k := by
  induction h with
  | @node id tag fs here below ih =>
      by_cases hroot : k = (node id tag fs).height
      · exact ⟨_, .node here below, hroot.symm⟩
      · have hle : k ≤ heightAll fs := by
          have : (node id tag fs).height = heightAll fs + 1 := rfl
          omega
        obtain ⟨u, hu, he⟩ := exists_child_height (Nat.lt_of_lt_of_le hk hle)
        exact ih u hu (he ▸ hle)

/-- Subtrees of different heights stand in different rows. -/
theorem In.height_le_capacity {t : Tree NodeId} (h : t.In a) : t.height ≤ a.capacity := by
  -- a subtree for every height up to that of the tree
  have hex : ∀ k : Fin t.height, ∃ u : Tree NodeId, u.In a ∧ u.height = k.val + 1 := by
    intro k
    exact h.exists_of_height (Nat.succ_pos _) k.isLt
  choose u hu hheight using hex
  have hlive : ∀ k, (u k).label.index < a.capacity := by
    intro k
    obtain ⟨-, n, hn⟩ := mem_labels_live (hu k) (label_mem_labels _)
    exact Arena.index_lt_of_get? hn
  have hinj : Function.Injective fun k => (⟨(u k).label.index, hlive k⟩ : Fin a.capacity) := by
    intro i j hij
    have hidx : (u i).label.index = (u j).label.index := Fin.mk.inj hij
    have hsame : u i = u j := (hu i).unique (hu j) (NodeId.index_injective hidx)
    have hi := hheight i
    rw [hsame, hheight j] at hi
    exact Fin.ext (Nat.succ.inj hi).symm
  simpa using Fintype.card_le_of_injective _ hinj

theorem In.height_lt_depthBound {t : Tree NodeId} (h : t.In a) : t.height < a.depthBound :=
  Nat.lt_succ_of_le h.height_le_capacity

end Tree

end Foam
