import Foam.Arena.Basic
import Foam.Builtin
import Foam.Protocol
import Foam.Usage
import Mathlib.Data.Finset.Card

/-!
# Well-formed arenas

An arena is well formed if its columns are of one length, its vacant ids are those of the rows that
are not flagged as live, each listed once, no row has the null id, and the slots of live nodes fit
their tags. Making and releasing a node keep this, and change no other node; `Adds` and `Removes` say
so once for all operations.
-/

namespace Foam

/-! ## Kinds by position -/

namespace Layout

theorem kinds_succ {l : Layout} {n : Nat} {k : FieldKind} (h : l.kindAt? n = some k) :
    l.kinds (n + 1) = l.kinds n ++ [k] := by
  rw [kinds, List.range_succ, List.filterMap_append, List.filterMap_cons_some h]
  rfl

theorem getElem?_kinds_of_isSome {l : Layout} {n : Nat}
    (h : ∀ i, i < n → (l.kindAt? i).isSome = true) :
    (l.kinds n).length = n ∧ ∀ i, i < n → (l.kinds n)[i]? = l.kindAt? i := by
  induction n with
  | zero => exact ⟨rfl, fun i hi => absurd hi (Nat.not_lt_zero i)⟩
  | succ n ih =>
      obtain ⟨hlen, hget⟩ := ih fun i hi => h i (Nat.lt_succ_of_lt hi)
      obtain ⟨k, hk⟩ := Option.isSome_iff_exists.mp (h n (Nat.lt_succ_self n))
      rw [kinds_succ hk]
      refine ⟨by simp [hlen], ?_⟩
      intro i hi
      rcases Nat.lt_or_eq_of_le (Nat.le_of_lt_succ hi) with hi | rfl
      · rw [List.getElem?_append_left (by omega)]
        exact hget i hi
      · rw [List.getElem?_append_right (by omega), hlen, hk]
        simp

theorem getElem?_kinds {l : Layout} {n i : Nat} (h : l.accepts n = true) (hi : i < n) :
    (l.kinds n)[i]? = l.kindAt? i :=
  (getElem?_kinds_of_isSome fun _ hj => kindAt?_isSome_of_accepts h hj).2 i hi

theorem kindAt?_fixed {l : Layout} {i : Nat} (hi : i < l.minSlots) :
    l.kindAt? i = l.fixed[i]? := by
  rw [kindAt?, List.getElem?_eq_getElem hi]
  rfl

theorem kinds_minSlots (l : Layout) : l.kinds l.minSlots = l.fixed := by
  obtain ⟨hlen, hget⟩ := getElem?_kinds_of_isSome (l := l) (n := l.minSlots) fun i hi => by
    rw [kindAt?_fixed hi, List.getElem?_eq_getElem hi]
    rfl
  apply List.ext_getElem?
  intro i
  by_cases hi : i < l.minSlots
  · rw [hget i hi, kindAt?_fixed hi]
  · have hi : l.minSlots ≤ i := Nat.le_of_not_lt hi
    rw [List.getElem?_eq_none (by omega), List.getElem?_eq_none hi]

/-- After the fixed kinds comes that of the tail, once for every further slot. -/
theorem kinds_of_tail {l : Layout} {k : FieldKind} (h : l.tail = some k) (m : Nat) :
    l.kinds (l.minSlots + m) = l.fixed ++ List.replicate m k := by
  induction m with
  | zero => rw [Nat.add_zero, kinds_minSlots, List.replicate_zero, List.append_nil]
  | succ m ih =>
      have hkind : l.kindAt? (l.minSlots + m) = some k := by
        have hpast : l.fixed.length ≤ l.minSlots + m := Nat.le_add_right ..
        rw [kindAt?, h, List.getElem?_eq_none hpast]
        rfl
      rw [← Nat.add_assoc, kinds_succ hkind, ih, List.append_assoc, ← List.replicate_succ']

theorem kind_of_mem {l : Layout} {n : Nat} {k : FieldKind} (h : k ∈ l.kinds n) :
    k ∈ l.fixed ∨ l.tail = some k := by
  obtain ⟨i, -, hi⟩ := List.mem_filterMap.mp h
  rcases Option.or_eq_some_iff.mp hi with hi | ⟨-, hi⟩
  · exact .inl (List.mem_of_getElem? hi)
  · exact .inr hi

theorem kinds_children {l : Layout} (h : l = ⟨[], some .child⟩) (n : Nat) :
    l.kinds n = List.replicate n .child := by
  subst h
  have hkinds := kinds_of_tail (l := ⟨[], some .child⟩) rfl n
  rwa [show (Layout.mk [] (some .child)).minSlots = 0 from rfl, Nat.zero_add] at hkinds

end Layout

theorem NodeId.index_injective {x y : NodeId} (h : x.index = y.index) : x = y := by
  obtain ⟨x⟩ := x
  obtain ⟨y⟩ := y
  exact congrArg NodeId.mk (UInt32.toNat_inj.mp h)

theorem NodeId.index_ne {x y : NodeId} (h : x ≠ y) : y.index ≠ x.index := by
  intro e
  exact h (index_injective e.symm)

/-! ## What slots hold -/

/-- The slots are as many as the layout of the tag admits, and hold what it asks for. -/
def Node.Fits (n : Node) : Prop :=
  n.tag.layout.accepts n.slots.length = true ∧ ∀ k s, (k, s) ∈ n.fields → s.fits k = true

/-- A slot for a row of a table holds the ordinal of one. -/
def Slot.inTable : FieldKind → Slot → Bool
  | .typeTag, .int v => (Tag.ofOrdinal? v.toInt).isSome
  | .builtin, .int v => (Table.ofOrdinal? v.toInt : Option Builtin).isSome
  | .protocol, .int v => (Table.ofOrdinal? v.toInt : Option Protocol).isSome
  | .declUsage, .int v => (Table.ofOrdinal? v.toInt : Option Usage).isSome
  | _, _ => true

/-- Every slot of the node for a row of a table holds the ordinal of one. -/
def Node.InTable (n : Node) : Prop := ∀ k s, (k, s) ∈ n.fields → s.inTable k = true

/-- No child of the node is absent. -/
def Node.Complete (n : Node) : Prop := ∀ c, .code c ∈ n.slots → c.isNull = false

theorem Slot.code?_eq_some {s : Slot} {c : NodeId} : s.code? = some c ↔ s = .code c := by
  cases s with
  | code d =>
      rw [code?, Slot.code.injEq]
      exact ⟨Option.some.inj, congrArg some⟩
  | _ => constructor <;> rintro ⟨⟩

theorem Slot.mem_child? {s : Slot} {c : NodeId} :
    c ∈ s.child? ↔ s = .code c ∧ c.isNull = false := by
  cases s with
  | code d =>
      rw [child?, Option.mem_def, Slot.code.injEq]
      cases hd : d.isNull with
      | true =>
          constructor
          · rintro ⟨⟩
          · rintro ⟨rfl, hc⟩
            rw [hd] at hc
            cases hc
      | false =>
          constructor
          · intro h
            obtain rfl : d = c := Option.some.inj h
            exact ⟨rfl, hd⟩
          · rintro ⟨rfl, -⟩
            rfl
  | _ =>
      constructor
      · rintro ⟨⟩
      · rintro ⟨⟨⟩, -⟩

theorem Node.mem_children {n : Node} {c : NodeId} :
    c ∈ n.children ↔ .code c ∈ n.slots ∧ c.isNull = false := by
  rw [children, List.mem_filterMap]
  constructor
  · rintro ⟨s, hs, hc⟩
    obtain ⟨rfl, hnull⟩ := Slot.mem_child?.mp hc
    exact ⟨hs, hnull⟩
  · rintro ⟨hs, hnull⟩
    exact ⟨_, hs, Slot.mem_child?.mpr ⟨rfl, hnull⟩⟩

instance (n : Node) : Decidable n.Fits :=
  decidable_of_iff (n.tag.layout.accepts n.slots.length = true ∧
    ∀ p ∈ n.fields, p.2.fits p.1 = true) (and_congr_right fun _ => Prod.forall)

instance (n : Node) : Decidable n.InTable :=
  decidable_of_iff (∀ p ∈ n.fields, p.2.inTable p.1 = true) Prod.forall

namespace Arena

/-- The index of the null id. All others are below it. -/
def idLimit : Nat := 0xFFFFFFFF

/-- The columns are of one length. -/
structure Aligned (a : Arena) : Prop where
  tags : a.tags.size = a.capacity
  slotLists : a.slotLists.size = a.capacity
  spans : a.spans.size = a.capacity
  symbols : a.symbols.size = a.capacity
  optInfos : a.optInfos.size = a.capacity

structure WellFormed (a : Arena) : Prop where
  aligned : a.Aligned
  vacant_nodup : a.vacant.Nodup
  mem_vacant : ∀ id, id ∈ a.vacant ↔ a.live[id.index]? = some false
  size_le : a.capacity ≤ idLimit
  fits : ∀ id n, a.get? id = some n → n.Fits

/-- So many nodes more can be made before the ids run out. -/
def Room (a : Arena) (n : Nat) : Prop := a.liveCount + n ≤ idLimit

theorem empty_aligned : empty.Aligned := ⟨rfl, rfl, rfl, rfl, rfl⟩

theorem empty_wellFormed : empty.WellFormed where
  aligned := empty_aligned
  vacant_nodup := List.nodup_nil
  mem_vacant := by simp [empty]
  size_le := Nat.zero_le _
  fits := by simp [empty, get?]

variable {a b : Arena} {id : NodeId} {n : Node}

theorem index_null : NodeId.null.index = idLimit := rfl

/-- Every number up to that of the null id is the index of an id. -/
theorem index_ofNat {i : Nat} (hi : i ≤ idLimit) : NodeId.index ⟨UInt32.ofNat i⟩ = i :=
  UInt32.toNat_ofNat_of_lt' (Nat.lt_succ_of_le hi)

theorem not_null_of_index_lt (h : id.index < idLimit) : id.isNull = false := by
  have hne : id ≠ NodeId.null := by
    rintro rfl
    rw [index_null] at h
    exact Nat.lt_irrefl _ h
  simpa [NodeId.isNull] using hne

theorem null_ne (hid : id.isNull = false) : NodeId.null ≠ id := by
  rintro rfl
  cases hid

/-! ## Rows -/

theorem row?_eq_some {i : Nat} : a.row? i = some n ↔ a.tags[i]? = some n.tag ∧
    a.slotLists[i]? = some n.slots ∧ a.spans[i]? = some n.span ∧ a.symbols[i]? = some n.symbol ∧
    a.optInfos[i]? = some n.optInfo := by
  simp only [row?, bind, Option.bind_eq_some_iff, pure, Option.some.injEq]
  constructor
  · rintro ⟨tag, htag, slots, hslots, span, hspan, symbol, hsymbol, info, hinfo, rfl⟩
    exact ⟨htag, hslots, hspan, hsymbol, hinfo⟩
  · rintro ⟨htag, hslots, hspan, hsymbol, hinfo⟩
    exact ⟨_, htag, _, hslots, _, hspan, _, hsymbol, _, hinfo, rfl⟩

theorem get?_eq_some :
    a.get? id = some n ↔ a.live[id.index]? = some true ∧ a.row? id.index = some n := by
  rw [get?, Option.ite_none_right_eq_some]

/-- Where the columns are of one length each row is that of a node. -/
theorem Aligned.exists_row (ha : a.Aligned) {i : Nat} (hi : i < a.capacity) :
    ∃ n, a.row? i = some n := by
  have htag : i < a.tags.size := ha.tags ▸ hi
  have hslots : i < a.slotLists.size := ha.slotLists ▸ hi
  have hspan : i < a.spans.size := ha.spans ▸ hi
  have hsymbol : i < a.symbols.size := ha.symbols ▸ hi
  have hinfo : i < a.optInfos.size := ha.optInfos ▸ hi
  exact ⟨⟨_, _, _, _, _⟩, row?_eq_some.mpr ⟨Array.getElem?_eq_getElem htag,
    Array.getElem?_eq_getElem hslots, Array.getElem?_eq_getElem hspan,
    Array.getElem?_eq_getElem hsymbol, Array.getElem?_eq_getElem hinfo⟩⟩

theorem Aligned.isSome_get? (ha : a.Aligned) :
    (a.get? id).isSome = (a.live[id.index]? == some true) := by
  by_cases hlive : a.live[id.index]? = some true
  · obtain ⟨n, hn⟩ := ha.exists_row (Array.getElem?_eq_some_iff.mp hlive).1
    rw [get?, if_pos hlive, hn, hlive]
    rfl
  · rw [get?, if_neg hlive]
    exact (beq_eq_false_iff_ne.mpr hlive).symm

theorem Aligned.contains_eq (ha : a.Aligned) :
    a.contains id = (!id.isNull && (a.get? id).isSome) := by
  rw [contains, ha.isSome_get?]

theorem index_lt_of_get? (h : a.get? id = some n) : id.index < a.capacity :=
  (Array.getElem?_eq_some_iff.mp (get?_eq_some.mp h).1).1

/-- The arena that has the given rows, of which `none` is one that never had a node. -/
def ofRows (rows : List (Option Node)) (vacant : List NodeId) : Arena where
  tags := (rows.map fun r => (r.map Node.tag).getD .nil).toArray
  slotLists := (rows.map fun r => (r.map Node.slots).getD []).toArray
  spans := (rows.map fun r => (r.map Node.span).getD .unknown).toArray
  symbols := (rows.map fun r => r.bind Node.symbol).toArray
  optInfos := (rows.map fun r => r.bind Node.optInfo).toArray
  live := (rows.map Option.isSome).toArray
  vacant := vacant

/-! ## Reading a live node -/

theorem node_of_get? (h : a.get? id = some n) : a.node id = .ok n := by
  rw [node, h]

theorem get?_of_node_ok {id : NodeId} {n : Node} (h : a.node id = .ok n) : a.get? id = some n := by
  unfold node at h
  split at h
  · next hn => rw [hn, Except.ok.inj h]
  · cases h

theorem tag_of_get? (h : a.get? id = some n) : a.tag id = .ok n.tag := by
  rw [tag, node_of_get? h]
  rfl

theorem slots_of_get? (h : a.get? id = some n) : a.slots id = .ok n.slots := by
  rw [slots, node_of_get? h]
  rfl

theorem children_of_get? (h : a.get? id = some n) : a.children id = .ok n.children := by
  rw [children, node_of_get? h]
  rfl

theorem slot_of_get? {i : Nat} {s : Slot} (h : a.get? id = some n) (hs : n.slots[i]? = some s) :
    a.slot id i = .ok s := by
  rw [slot, slots_of_get? h]
  simp [bind, Except.bind, hs, pure, Except.pure]

theorem int_of_get? {i : Nat} {v : Int64} (h : a.get? id = some n)
    (hs : n.slots[i]? = some (.int v)) : a.int id i = .ok v := by
  rw [int, slot_of_get? h hs]
  rfl

theorem child_of_get? {i : Nat} {c : NodeId} (h : a.get? id = some n)
    (hs : n.slots[i]? = some (.code c)) : a.child id i = .ok c := by
  rw [child, slot_of_get? h hs]
  rfl

theorem childrenFrom_of_get? {i : Nat} (h : a.get? id = some n) (hi : i ≤ n.slots.length) :
    a.childrenFrom id i = .ok ((n.slots.drop i).filterMap Slot.code?) := by
  rw [childrenFrom, slotsFrom, slots_of_get? h]
  simp [bind, Except.bind, hi, pure, Except.pure]

/-! ## Null and vacant ids -/

theorem null_of_child? {c : NodeId} (h : (Slot.code c).child? = none) : c = .null := by
  rw [Slot.child?] at h
  by_contra hc
  have hnull : c.isNull = false := by simpa [NodeId.isNull] using hc
  rw [hnull] at h
  cases h

theorem WellFormed.not_null (hw : a.WellFormed) (h : id.index < a.capacity) :
    id.isNull = false :=
  not_null_of_index_lt (Nat.lt_of_lt_of_le h hw.size_le)

theorem WellFormed.get?_null (hw : a.WellFormed) : a.get? .null = none := by
  by_contra hne
  obtain ⟨n, hn⟩ := Option.ne_none_iff_exists'.mp hne
  cases hw.not_null (index_lt_of_get? hn)

theorem WellFormed.index_lt_of_vacant (hw : a.WellFormed) (h : id ∈ a.vacant) :
    id.index < a.capacity :=
  (Array.getElem?_eq_some_iff.mp ((hw.mem_vacant id).mp h)).1

theorem get?_of_not_live (h : a.live[id.index]? = some false) : a.get? id = none := by
  rw [get?, h]
  rfl

theorem WellFormed.get?_of_vacant (hw : a.WellFormed) (h : id ∈ a.vacant) : a.get? id = none :=
  get?_of_not_live ((hw.mem_vacant id).mp h)

/-- The test for a live node finds every one, as none has the null id. -/
theorem WellFormed.contains_iff (hw : a.WellFormed) :
    a.contains id = true ↔ ∃ n, a.get? id = some n := by
  rw [hw.aligned.contains_eq, Bool.and_eq_true, Option.isSome_iff_exists]
  constructor
  · exact fun h => h.2
  · rintro ⟨n, hn⟩
    refine ⟨?_, n, hn⟩
    rw [hw.not_null (index_lt_of_get? hn)]
    rfl

theorem Aligned.contains_of_fresh (ha : a.Aligned) (h : a.get? id = none) :
    a.contains id = false := by
  rw [ha.contains_eq, h, Option.isSome_none, Bool.and_false]

theorem WellFormed.vacant_length_le (hw : a.WellFormed) : a.vacant.length ≤ a.capacity := by
  have hnodup : (a.vacant.map NodeId.index).Nodup :=
    hw.vacant_nodup.map fun _ _ h => NodeId.index_injective h
  have hsub : a.vacant.map NodeId.index ⊆ List.range a.capacity := by
    intro i hi
    obtain ⟨id, hid, rfl⟩ := List.mem_map.mp hi
    exact List.mem_range.mpr (hw.index_lt_of_vacant hid)
  simpa using (hnodup.subperm hsub).length_le

theorem aligned_iff : a.Aligned ↔ a.tags.size = a.capacity ∧ a.slotLists.size = a.capacity ∧
    a.spans.size = a.capacity ∧ a.symbols.size = a.capacity ∧ a.optInfos.size = a.capacity :=
  ⟨fun h => ⟨h.tags, h.slotLists, h.spans, h.symbols, h.optInfos⟩,
    fun ⟨h₁, h₂, h₃, h₄, h₅⟩ => ⟨h₁, h₂, h₃, h₄, h₅⟩⟩

instance (a : Arena) : Decidable a.Aligned := decidable_of_iff _ aligned_iff.symm

/-- Whether an arena is well formed shows by going through its rows once. -/
theorem wellFormed_iff : a.WellFormed ↔ a.Aligned ∧ a.vacant.Nodup ∧
    (∀ x ∈ a.vacant, a.live[x.index]? = some false) ∧
    (∀ i < a.capacity, a.live[i]? = some false → ⟨UInt32.ofNat i⟩ ∈ a.vacant) ∧
    a.capacity ≤ idLimit ∧
    ∀ i < a.capacity, a.live[i]? = some true → ∀ m ∈ a.row? i, m.Fits := by
  -- below the limit every index is that of an id
  have hindex : a.capacity ≤ idLimit → ∀ i < a.capacity, NodeId.index ⟨UInt32.ofNat i⟩ = i := by
    intro hle i hi
    exact index_ofNat (Nat.le_of_lt (Nat.lt_of_lt_of_le hi hle))
  constructor
  · intro h
    refine ⟨h.aligned, h.vacant_nodup, fun x hx => (h.mem_vacant x).mp hx, ?_, h.size_le, ?_⟩
    · intro i hi hv
      rw [h.mem_vacant, hindex h.size_le i hi]
      exact hv
    · intro i hi hlive m hm
      refine h.fits ⟨UInt32.ofNat i⟩ m ?_
      rw [get?_eq_some, hindex h.size_le i hi]
      exact ⟨hlive, hm⟩
  · rintro ⟨haligned, hnodup, hvacant, hall, hle, hfits⟩
    refine ⟨haligned, hnodup, fun x => ⟨hvacant x, ?_⟩, hle, ?_⟩
    · intro hx
      obtain ⟨hi, -⟩ := Array.getElem?_eq_some_iff.mp hx
      have hx' := hall x.index hi hx
      rwa [NodeId.index_injective (hindex hle x.index hi)] at hx'
    · intro x m hm
      obtain ⟨hlive, hrow⟩ := get?_eq_some.mp hm
      exact hfits x.index (index_lt_of_get? hm) hlive m hrow

instance (a : Arena) : Decidable a.WellFormed := decidable_of_iff _ wellFormed_iff.symm

instance (a : Arena) (n : Nat) : Decidable (a.Room n) := Nat.decLe ..

/-! ## Making a node -/

/-- From `a` to `b` the node `n` is made under a new id. -/
structure Adds (a : Arena) (id : NodeId) (n : Node) (b : Arena) : Prop where
  fresh : a.get? id = none
  not_null : id.isNull = false
  here : b.get? id = some n
  elsewhere : ∀ x, x ≠ id → b.get? x = a.get? x
  wellFormed : b.WellFormed
  liveCount : b.liveCount = a.liveCount + 1

/-- A row has what is written into it. -/
theorem row?_write_self {i : Nat} {m : Node} (h : a.row? i = some m) :
    (a.write i n).row? i = some n := by
  obtain ⟨htag, hslots, hspan, hsymbol, hinfo⟩ := row?_eq_some.mp h
  have stored : ∀ {α : Type} {vs : Array α} {v w : α}, vs[i]? = some v →
      (vs.setIfInBounds i w)[i]? = some w :=
    fun h => Array.getElem?_setIfInBounds_self_of_lt (Array.getElem?_eq_some_iff.mp h).1
  exact row?_eq_some.mpr
    ⟨stored htag, stored hslots, stored hspan, stored hsymbol, stored hinfo⟩

theorem row?_write_of_ne {i j : Nat} (h : i ≠ j) : (a.write i n).row? j = a.row? j := by
  simp [row?, write, h]

/-- Only the row that is written into changes. -/
theorem get?_write {x : NodeId} {m : Node} (h : a.get? id = some m) :
    (a.write id.index n).get? x = if x = id then some n else a.get? x := by
  obtain ⟨hlive, hrow⟩ := get?_eq_some.mp h
  by_cases hx : x = id
  · subst hx
    rw [if_pos rfl, get?_eq_some]
    exact ⟨hlive, row?_write_self hrow⟩
  · rw [if_neg hx, get?, row?_write_of_ne (NodeId.index_ne hx)]
    rfl

/-- A vacant row that is written into and taken is that of the node, and no other row changes. -/
theorem get?_occupy {rest : List NodeId} {x : NodeId} (ha : a.Aligned)
    (h : id.index < a.capacity) : ((a.write id.index n).occupy id rest).get? x =
      if x = id then some n else a.get? x := by
  by_cases hx : x = id
  · subst hx
    obtain ⟨m, hrow⟩ := ha.exists_row h
    rw [if_pos rfl, get?_eq_some]
    exact ⟨Array.getElem?_setIfInBounds_self_of_lt h, row?_write_self hrow⟩
  · have hne : id.index ≠ x.index := NodeId.index_ne hx
    have hrow : ((a.write id.index n).occupy id rest).row? x.index = a.row? x.index :=
      row?_write_of_ne hne
    have hlive : (a.live.setIfInBounds id.index true)[x.index]? = a.live[x.index]? :=
      Array.getElem?_setIfInBounds_ne hne
    rw [if_neg hx, get?, hrow]
    show (if (a.live.setIfInBounds id.index true)[x.index]? = some true then _ else _) = _
    rw [hlive]
    rfl

/-- A new row is that of the id whose index is the number of rows there were. -/
theorem get?_append {x : NodeId} (ha : a.Aligned) (hle : a.capacity ≤ idLimit) :
    (a.append n).get? x = if x = ⟨UInt32.ofNat a.capacity⟩ then some n else a.get? x := by
  by_cases hx : x = ⟨UInt32.ofNat a.capacity⟩
  · have hindex : x.index = a.capacity := by rw [hx, index_ofNat hle]
    rw [if_pos hx, get?_eq_some, row?_eq_some, hindex]
    have last : ∀ {α : Type} {vs : Array α} {v : α}, vs.size = a.capacity →
        (vs.push v)[a.capacity]? = some v := by
      intro α vs v h
      rw [← h, Array.getElem?_push_size]
    exact ⟨last rfl, last ha.tags, last ha.slotLists, last ha.spans, last ha.symbols,
      last ha.optInfos⟩
  · have hne : x.index ≠ a.capacity :=
      fun e => hx (NodeId.index_injective (e.trans (index_ofNat hle).symm))
    have before : ∀ {α : Type} {vs : Array α} {v : α}, vs.size = a.capacity →
        (vs.push v)[x.index]? = vs[x.index]? := by
      intro α vs v h
      rw [Array.getElem?_push, if_neg (h ▸ hne)]
    have hlive : (a.live.push true)[x.index]? = a.live[x.index]? := before rfl
    simp only [if_neg hx, get?, row?, append, hlive, before ha.tags, before ha.slotLists,
      before ha.spans, before ha.symbols, before ha.optInfos]

/-- A row that has become vacant has no node, and no other row changes. -/
theorem get?_vacate {x : NodeId} :
    (a.vacate id).get? x = if x = id then none else a.get? x := by
  by_cases hx : x = id
  · subst hx
    have hdead : (a.live.setIfInBounds x.index false)[x.index]? ≠ some true := by
      rw [Array.getElem?_setIfInBounds_self]
      split
      · simp
      · simp
    rw [if_pos rfl, get?]
    exact if_neg hdead
  · have hne : id.index ≠ x.index := NodeId.index_ne hx
    simp [get?, row?, vacate, hx, hne]

theorem Aligned.write (ha : a.Aligned) (i : Nat) (n : Node) : (a.write i n).Aligned := by
  constructor <;> simp [Arena.write, capacity, ha.tags, ha.slotLists, ha.spans, ha.symbols,
    ha.optInfos]

theorem Aligned.occupy (ha : a.Aligned) (id : NodeId) (rest : List NodeId) :
    (a.occupy id rest).Aligned := by
  constructor <;> simp [Arena.occupy, capacity, ha.tags, ha.slotLists, ha.spans, ha.symbols,
    ha.optInfos]

theorem Aligned.append (ha : a.Aligned) (n : Node) : (a.append n).Aligned := by
  constructor <;> simp [Arena.append, capacity, ha.tags, ha.slotLists, ha.spans, ha.symbols,
    ha.optInfos]

theorem Aligned.vacate (ha : a.Aligned) (id : NodeId) : (a.vacate id).Aligned := by
  constructor <;> simp [Arena.vacate, capacity, ha.tags, ha.slotLists, ha.spans, ha.symbols,
    ha.optInfos]

@[simp] theorem capacity_write (a : Arena) (i : Nat) (n : Node) :
    (a.write i n).capacity = a.capacity := rfl

@[simp] theorem capacity_occupy (a : Arena) (id : NodeId) (rest : List NodeId) :
    (a.occupy id rest).capacity = a.capacity := Array.size_setIfInBounds

@[simp] theorem capacity_append (a : Arena) (n : Node) : (a.append n).capacity = a.capacity + 1 :=
  Array.size_push ..

@[simp] theorem capacity_vacate (a : Arena) (id : NodeId) : (a.vacate id).capacity = a.capacity :=
  Array.size_setIfInBounds

theorem insert_of_vacant {tag : Tag} {slots : List Slot} {rest : List NodeId}
    (hv : a.vacant = id :: rest) :
    insert tag slots a = .ok (id, (a.write id.index (.bare tag slots)).occupy id rest) := by
  rw [insert, hv]

theorem insert_of_none_vacant {tag : Tag} {slots : List Slot} (ha : a.Aligned)
    (hv : a.vacant = []) (hle : a.capacity ≤ idLimit) :
    insert tag slots a = .ok (⟨UInt32.ofNat a.capacity⟩, a.append (.bare tag slots)) := by
  rw [insert, hv, ← ha.tags]
  exact if_pos (ha.tags ▸ hle)

theorem adds_of_vacant (hw : a.WellFormed) {rest : List NodeId} (hv : a.vacant = id :: rest)
    (hn : n.Fits) : Adds a id n ((a.write id.index n).occupy id rest) := by
  have hmem : id ∈ a.vacant := hv ▸ List.mem_cons_self
  have hlt : id.index < a.capacity := hw.index_lt_of_vacant hmem
  obtain ⟨hout, hnodup⟩ : id ∉ rest ∧ rest.Nodup := List.nodup_cons.mp (hv ▸ hw.vacant_nodup)
  have hget : ∀ x, ((a.write id.index n).occupy id rest).get? x =
      if x = id then some n else a.get? x := fun x => get?_occupy hw.aligned hlt
  have hcapacity : ((a.write id.index n).occupy id rest).capacity = a.capacity :=
    Array.size_setIfInBounds
  refine ⟨hw.get?_of_vacant hmem, hw.not_null hlt, by simp [hget], ?_,
    ⟨(hw.aligned.write _ n).occupy _ _, hnodup, ?_, hcapacity ▸ hw.size_le, ?_⟩, ?_⟩
  · intro x hx
    simp [hget, hx]
  · intro x
    show x ∈ rest ↔ (a.live.setIfInBounds id.index true)[x.index]? = some false
    rw [Array.getElem?_setIfInBounds]
    by_cases hx : x = id
    · subst hx
      simp [hout]
    · have hne : id.index ≠ x.index := NodeId.index_ne hx
      rw [if_neg hne, ← hw.mem_vacant x, hv]
      simp [hx]
  · intro x m hm
    rw [hget] at hm
    split at hm
    · cases hm
      exact hn
    · exact hw.fits x m hm
  · have hle : a.vacant.length ≤ a.capacity := hw.vacant_length_le
    show (a.live.setIfInBounds id.index true).size - rest.length = a.live.size - a.vacant.length + 1
    rw [capacity] at hle
    rw [Array.size_setIfInBounds]
    simp only [hv, List.length_cons] at hle ⊢
    omega

theorem adds_of_none_vacant (hw : a.WellFormed) (hv : a.vacant = []) (hr : a.Room 1)
    (hn : n.Fits) : Adds a ⟨UInt32.ofNat a.capacity⟩ n (a.append n) := by
  have hlt : a.capacity < idLimit := by
    rw [Room, Arena.liveCount, hv] at hr
    exact hr
  have hle : a.capacity ≤ idLimit := Nat.le_of_lt hlt
  have hget : ∀ x, (a.append n).get? x =
      if x = ⟨UInt32.ofNat a.capacity⟩ then some n else a.get? x := fun x => get?_append hw.aligned hle
  have hindex : NodeId.index ⟨UInt32.ofNat a.capacity⟩ = a.capacity := index_ofNat hle
  refine ⟨?_, not_null_of_index_lt (hindex.trans_lt hlt), by simp [hget], ?_,
    ⟨hw.aligned.append n, hw.vacant_nodup, ?_, ?_, ?_⟩, ?_⟩
  · by_contra hne
    obtain ⟨m, hm⟩ := Option.ne_none_iff_exists'.mp hne
    exact Nat.lt_irrefl _ (hindex ▸ index_lt_of_get? hm)
  · intro x hx
    simp [hget, hx]
  · intro x
    show x ∈ a.vacant ↔ (a.live.push true)[x.index]? = some false
    rw [hw.mem_vacant, Array.getElem?_push]
    split
    · next hx => simp [hx]
    · rfl
  · rw [capacity_append]
    exact hlt
  · intro x m hm
    rw [hget] at hm
    split at hm
    · cases hm
      exact hn
    · exact hw.fits x m hm
  · show (a.live.push true).size - a.vacant.length = a.live.size - a.vacant.length + 1
    rw [hv, Array.size_push]
    rfl

theorem insert_adds {tag : Tag} {slots : List Slot} (hw : a.WellFormed) (hr : a.Room 1)
    (hn : (Node.bare tag slots).Fits) :
    ∃ id b, insert tag slots a = .ok (id, b) ∧ Adds a id (.bare tag slots) b := by
  cases hv : a.vacant with
  | cons id rest => exact ⟨id, _, insert_of_vacant hv, adds_of_vacant hw hv hn⟩
  | nil =>
      exact ⟨_, _, insert_of_none_vacant hw.aligned hv hw.size_le, adds_of_none_vacant hw hv hr hn⟩

theorem misfit?_eq_none {l : Layout} {ss : List Slot} {i : Nat}
    (h : ∀ j k s, l.kindAt? (i + j) = some k → ss[j]? = some s → s.fits k = true) :
    misfit? l i ss = none := by
  induction ss generalizing i with
  | nil => rfl
  | cons s ss ih =>
      have ih := ih (i := i + 1) fun j k s hk hs =>
        h (j + 1) k s (by rw [← hk]; congr 1; omega) (by simpa using hs)
      unfold misfit?
      cases hk : l.kindAt? i with
      | none => exact ih
      | some k =>
          have hs : s.fits k = true := h 0 k s hk rfl
          simp only [hs, if_true]
          exact ih

/-- Slots that fit the tag pass all checks. -/
theorem push_eq_insert {tag : Tag} {slots : List Slot} (hn : (Node.bare tag slots).Fits) :
    push tag slots = insert tag slots := by
  obtain ⟨haccepts, hfits⟩ := hn
  change tag.layout.accepts slots.length = true at haccepts
  -- the check asks for the kind of one slot after the other, `Fits` for all of them at once
  have hmis : misfit? tag.layout 0 slots = none := by
    apply misfit?_eq_none
    intro j k s hk hs
    apply hfits k s
    have hj : j < slots.length := (List.getElem?_eq_some_iff.mp hs).1
    have hkind := Layout.getElem?_kinds haccepts hj
    rw [Nat.zero_add] at hk
    refine List.mem_of_getElem? (i := j) ?_
    show ((tag.layout.kinds slots.length).zip slots)[j]? = some (k, s)
    rw [List.getElem?_zip_eq_some]
    exact ⟨hkind.trans hk, hs⟩
  rw [push, if_pos haccepts, hmis]

/-- Slots that fit the tag make a node. -/
theorem push_adds {tag : Tag} {slots : List Slot} (hw : a.WellFormed) (hr : a.Room 1)
    (hn : (Node.bare tag slots).Fits) :
    ∃ id b, push tag slots a = .ok (id, b) ∧ Adds a id (.bare tag slots) b := by
  rw [push_eq_insert hn]
  exact insert_adds hw hr hn

/-! ## Releasing a node -/

/-- From `a` to `b` the node under `id` is released. -/
structure Removes (a : Arena) (id : NodeId) (b : Arena) : Prop where
  here : b.get? id = none
  elsewhere : ∀ x, x ≠ id → b.get? x = a.get? x
  wellFormed : b.WellFormed
  liveCount : b.liveCount + 1 = a.liveCount

theorem release_of_get? (h : a.get? id = some n) : release id a = .ok ((), a.vacate id) := by
  rw [release, node_of_get? h]
  rfl

theorem release_removes (hw : a.WellFormed) (h : a.get? id = some n) :
    ∃ b, release id a = .ok ((), b) ∧ Removes a id b := by
  have hlt : id.index < a.capacity := index_lt_of_get? h
  have hout : id ∉ a.vacant := by
    intro hmem
    rw [hw.get?_of_vacant hmem] at h
    cases h
  have hwell : (a.vacate id).WellFormed := by
    refine ⟨hw.aligned.vacate id, List.nodup_cons.mpr ⟨hout, hw.vacant_nodup⟩, ?_, ?_, ?_⟩
    · intro x
      show x ∈ id :: a.vacant ↔ (a.live.setIfInBounds id.index false)[x.index]? = some false
      rw [Array.getElem?_setIfInBounds]
      by_cases hx : x = id
      · subst hx
        rw [if_pos rfl, if_pos (show x.index < a.live.size from hlt)]
        simp
      · have hne : id.index ≠ x.index := NodeId.index_ne hx
        rw [if_neg hne, ← hw.mem_vacant x]
        simp [hx]
    · rw [capacity_vacate]
      exact hw.size_le
    · intro x m hm
      rw [get?_vacate] at hm
      split at hm
      · cases hm
      · exact hw.fits x m hm
  refine ⟨_, release_of_get? h, by simp [get?_vacate], ?_, hwell, ?_⟩
  · intro x hx
    simp [get?_vacate, hx]
  · have hle := hwell.vacant_length_le
    rw [capacity_vacate] at hle
    change a.vacant.length + 1 ≤ a.live.size at hle
    show (a.live.setIfInBounds id.index false).size - (a.vacant.length + 1) + 1 =
      a.live.size - a.vacant.length
    rw [Array.size_setIfInBounds]
    omega

end Arena

end Foam
