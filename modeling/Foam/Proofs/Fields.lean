import Foam.Proofs.Checked
import Foam.Proofs.Unit

/-!
# Reading the fields of a tree

What the operations of an arena answer for a node that stands there as a tree, field by field.
-/

namespace Foam

/-! ## Nodes -/

namespace Arena

variable {a : Arena} {id : NodeId} {n : Node} {i : Nat}

theorem slotCount_of_get? (h : a.get? id = some n) : a.slotCount id = .ok n.slots.length := by
  rw [slotCount, slots_of_get? h]
  rfl

theorem WellFormed.node_null (hw : a.WellFormed) : a.node .null = .error (.notLive .null) := by
  rw [node, hw.get?_null]

theorem slot_eq_ok (h : a.get? id = some n) {s : Slot} :
    a.slot id i = .ok s ↔ n.slots[i]? = some s := by
  rw [slot, slots_of_get? h, Checked.ok_bind]
  cases n.slots[i]? with
  | none => constructor <;> rintro ⟨⟩
  | some r =>
      constructor
      · exact fun h => congrArg some (Except.ok.inj h)
      · exact fun h => congrArg Except.ok (Option.some.inj h)

theorem int_eq_ok (hn : a.get? id = some n) {v : Int64} :
    a.int id i = .ok v ↔ n.slots[i]? = some (.int v) := by
  refine ⟨fun h => ?_, int_of_get? hn⟩
  obtain ⟨s, hs, h⟩ := Checked.bind_eq_ok.mp h
  rw [(slot_eq_ok hn).mp hs]
  cases s with
  | int w => rw [Except.ok.inj h]
  | _ =>
      obtain ⟨_, _, h⟩ := Checked.bind_eq_ok.mp h
      cases h

theorem child_eq_ok (hn : a.get? id = some n) {c : NodeId} :
    a.child id i = .ok c ↔ n.slots[i]? = some (.code c) := by
  refine ⟨fun h => ?_, child_of_get? hn⟩
  obtain ⟨s, hs, h⟩ := Checked.bind_eq_ok.mp h
  rw [(slot_eq_ok hn).mp hs]
  cases s with
  | code d => rw [Except.ok.inj h]
  | _ =>
      obtain ⟨_, _, h⟩ := Checked.bind_eq_ok.mp h
      cases h

/-- A slot of a node that fits holds what the layout says. -/
theorem WellFormed.fits_at (hw : a.WellFormed) (h : a.get? id = some n) {s : Slot} {k : FieldKind}
    (hs : n.slots[i]? = some s) (hk : n.tag.layout.kindAt? i = some k) : s.fits k = true := by
  obtain ⟨haccepts, hfits⟩ := hw.fits id n h
  have hi : i < n.slots.length := (List.getElem?_eq_some_iff.mp hs).1
  refine hfits k s (List.mem_of_getElem? (i := i) ?_)
  rw [Node.fields, List.getElem?_zip_eq_some, Layout.getElem?_kinds haccepts hi]
  exact ⟨hk, hs⟩

theorem WellFormed.code_at (hw : a.WellFormed) (h : a.get? id = some n) (hi : i < n.slots.length)
    (hk : n.tag.layout.kindAt? i = some .child) : ∃ c, n.slots[i]? = some (.code c) := by
  have hs : n.slots[i]? = some n.slots[i] := List.getElem?_eq_getElem hi
  obtain ⟨c, hc⟩ := Slot.code_of_fits (hw.fits_at h hs hk)
  exact ⟨c, by rw [hs, hc]⟩

theorem WellFormed.int_at (hw : a.WellFormed) (h : a.get? id = some n) (hi : i < n.slots.length)
    {k : FieldKind} (hk : n.tag.layout.kindAt? i = some k) (hint : k.isIntegral = true) :
    ∃ v, n.slots[i]? = some (.int v) := by
  have hs : n.slots[i]? = some n.slots[i] := List.getElem?_eq_getElem hi
  obtain ⟨v, hv⟩ := Slot.int_of_fits hint (hw.fits_at h hs hk)
  exact ⟨v, by rw [hs, hv]⟩

end Arena

/-! ## Fields -/

/-- The id that a field for a child holds. -/
def Field.ref : Field (Tree NodeId) → NodeId
  | leaf _ => .null
  | child t => t.label

theorem mem_subtrees_of_child? {α : Type} {t c : Tree α} {i : Nat} (h : t.child? i = some c) :
    c ∈ Tree.subtrees t.fields := by
  obtain ⟨f, hf, hfc⟩ := Option.bind_eq_some_iff.mp h
  exact List.mem_filterMap.mpr ⟨f, List.mem_of_getElem? hf, hfc⟩

theorem height_lt_of_child? {α : Type} {t c : Tree α} {i : Nat} (h : t.child? i = some c) :
    c.height < t.height := by
  obtain ⟨l, tag, fs⟩ := t
  exact Tree.height_lt l tag (Tree.mem_subtrees.mp (mem_subtrees_of_child? h))

namespace Tree

theorem In.ref_eq {a : Arena} {t : Tree NodeId} (ht : t.In a) {i : Nat}
    {f : Field (Tree NodeId)} (hi : t.fields[i]? = some f)
    (hf : f.Obeys (fun k s => s.fits k = true) .child) : a.child t.label i = .ok f.ref := by
  obtain ⟨n, hg, -, hslots⟩ := ht.node_eq
  apply Arena.child_of_get? hg
  rw [hslots, List.getElem?_map, hi]
  cases f with
  | child u => rfl
  | leaf s =>
      obtain ⟨c, rfl⟩ := Slot.code_of_fits hf
      obtain ⟨l, tag, fs⟩ := t
      rw [Arena.null_of_child? (ht.leaf (List.mem_of_getElem? hi))]
      rfl

theorem In.int_eq_ok {a : Arena} {t : Tree NodeId} (ht : t.In a) {i : Nat} {v : Int64} :
    a.int t.label i = .ok v ↔ t.fields[i]? = some (.leaf (.int v)) := by
  refine ⟨fun h => ?_, ht.int_eq⟩
  obtain ⟨n, hn, -, hslots⟩ := ht.node_eq
  rw [Arena.int_eq_ok hn, hslots, List.getElem?_map, Option.map_eq_some_iff] at h
  obtain ⟨f, hf, hfv⟩ := h
  cases f with
  | leaf s => exact hf.trans (congrArg (some ∘ Field.leaf) hfv)
  | child c => cases hfv

/-- A child that can be read is absent, or the root of a tree below. -/
theorem In.of_child_ok {a : Arena} {t : Tree NodeId} (ht : t.In a) {i : Nat} {x : NodeId}
    (h : a.child t.label i = .ok x) :
    (t.fields[i]? = some (.leaf (.code .null)) ∧ x = .null) ∨
      ∃ c, t.fields[i]? = some (.child c) ∧ x = c.label := by
  obtain ⟨n, hn, -, hslots⟩ := ht.node_eq
  rw [Arena.child_eq_ok hn, hslots, List.getElem?_map, Option.map_eq_some_iff] at h
  obtain ⟨f, hf, hfx⟩ := h
  cases f with
  | child c => exact .inr ⟨c, hf, (Slot.code.inj hfx).symm⟩
  | leaf s =>
      obtain rfl : s = .code x := hfx
      obtain ⟨l, tag, fs⟩ := t
      obtain rfl := Arena.null_of_child? (ht.leaf (List.mem_of_getElem? hf))
      exact .inl ⟨hf, rfl⟩

end Tree

end Foam
