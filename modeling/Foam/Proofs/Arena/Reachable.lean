import Foam.Proofs.Arena.Operations
import Mathlib.Data.Bool.Count
import Mathlib.Data.List.Nodup

/-!
# Every arena that operations lead to

What holds wherever a sequence of operations leads from the empty arena: the columns are of one
length, the flags of live rows and the list of vacant ids say the same, the nodes fit their tags, and
the next new node comes up under an id that was not live, without notes, whatever its row still held.
A reader that fails is an operation like any other, as it leaves an arena too.
-/

namespace Foam.Arena

variable {a b : Arena} {id : NodeId}

/-! ## Flags and vacant ids -/

/-- The vacant ids are those of the flags that are down. -/
theorem WellFormed.mem_indices (hw : a.WellFormed) (i : Nat) :
    i ∈ a.vacant.map NodeId.index ↔ a.live[i]? = some false := by
  rw [List.mem_map]
  constructor
  · rintro ⟨id, hid, rfl⟩
    exact (hw.mem_vacant id).mp hid
  · intro h
    have hi : i < a.capacity := (Array.getElem?_eq_some_iff.mp h).1
    have hindex : NodeId.index ⟨UInt32.ofNat i⟩ = i :=
      index_ofNat (Nat.le_of_lt (Nat.lt_of_lt_of_le hi hw.size_le))
    refine ⟨⟨UInt32.ofNat i⟩, (hw.mem_vacant _).mpr ?_, hindex⟩
    rw [hindex]
    exact h

theorem length_filter_positions {α : Type} [DecidableEq α] (v : α) (vs : List α) :
    ((List.range vs.length).filter fun i => vs[i]? = some v).length = vs.count v := by
  induction vs using List.reverseRecOn with
  | nil => rfl
  | append_singleton vs w ih =>
      have hfront : (List.range vs.length).filter (fun i => (vs ++ [w])[i]? = some v) =
          (List.range vs.length).filter fun i => vs[i]? = some v := by
        apply List.filter_congr
        intro i hi
        rw [List.getElem?_append_left (List.mem_range.mp hi)]
      rw [List.length_append, List.length_singleton, List.range_succ, List.filter_append, hfront,
        List.length_append, ih, List.count_append, List.filter_singleton,
        List.getElem?_append_right (Nat.le_refl _), Nat.sub_self]
      by_cases hw : w = v
      · simp [hw]
      · simp [hw]

/-- There are as many live nodes as flags that are up. -/
theorem WellFormed.liveCount_eq (hw : a.WellFormed) : a.liveCount = a.live.count true := by
  -- the indices of vacant ids are the positions at which the flag is down, each listed once
  have hperm : (a.vacant.map NodeId.index).Perm
      ((List.range a.live.toList.length).filter fun i => a.live.toList[i]? = some false) := by
    rw [List.perm_ext_iff_of_nodup (hw.vacant_nodup.map fun _ _ h => NodeId.index_injective h)
      (List.nodup_range.filter _)]
    intro i
    rw [hw.mem_indices, List.mem_filter, List.mem_range, decide_eq_true_iff, Array.getElem?_toList]
    constructor
    · exact fun h => ⟨(Array.getElem?_eq_some_iff.mp h).1, h⟩
    · exact And.right
  have hdown : a.vacant.length = a.live.toList.count false := by
    rw [← List.length_map NodeId.index, hperm.length_eq, length_filter_positions]
  have hsum := List.count_true_add_count_false a.live.toList
  rw [Array.length_toList] at hsum
  rw [liveCount, ← Array.count_toList]
  omega

/-! ## Consistency -/

/-- The columns, the list of vacant ids and the layouts of the tags agree. -/
structure Consistent (a : Arena) : Prop where
  aligned : a.Aligned
  vacant_nodup : a.vacant.Nodup
  vacant_iff : ∀ i, i ∈ a.vacant.map NodeId.index ↔ a.live[i]? = some false
  liveCount : a.liveCount = a.live.count true
  fits : ∀ i, a.live[i]? = some true → ∃ n, a.row? i = some n ∧ n.Fits

theorem WellFormed.consistent (hw : a.WellFormed) : a.Consistent where
  aligned := hw.aligned
  vacant_nodup := hw.vacant_nodup
  vacant_iff := hw.mem_indices
  liveCount := hw.liveCount_eq
  fits := by
    intro i hlive
    have hi : i < a.capacity := (Array.getElem?_eq_some_iff.mp hlive).1
    have hindex : NodeId.index ⟨UInt32.ofNat i⟩ = i :=
      index_ofNat (Nat.le_of_lt (Nat.lt_of_lt_of_le hi hw.size_le))
    obtain ⟨n, hn⟩ := hw.aligned.exists_row hi
    refine ⟨n, hn, hw.fits ⟨UInt32.ofNat i⟩ n ?_⟩
    rw [get?_eq_some, hindex]
    exact ⟨hlive, hn⟩

/-- From `a` to `b` a node that was not live becomes so, without notes, and nothing else changes. -/
structure Makes (a : Arena) (id : NodeId) (tag : Tag) (slots : List Slot) (b : Arena) : Prop where
  dead : a.contains id = false
  live : b.contains id = true
  node : b.get? id = some ⟨tag, slots, .unknown, none, none⟩
  others : ∀ x, x ≠ id → b.get? x = a.get? x

theorem Adds.makes {tag : Tag} {slots : List Slot} (ha : a.Aligned)
    (h : Adds a id (.bare tag slots) b) : Makes a id tag slots b where
  dead := ha.contains_of_fresh h.fresh
  live := h.wellFormed.contains_iff.mpr ⟨_, h.here⟩
  node := h.here
  others := h.elsewhere

/-! ## Sequences of operations -/

/-- An operation that changes an arena, with what it is applied to. -/
inductive Operation
  | alloc (tag : Tag) (count : Nat)
  | push (tag : Tag) (slots : List Slot)
  | build (i : Instr)
  | buildNodes (tag : Tag) (children : List NodeId)
  | buildNumbered (tag : Tag) (n : Num) (children : List NodeId)
  | buildBlankGroup (n : Nat) (usage : Usage)
  | buildBlankSelect (op : NodeId) (n : Nat)
  | buildNot (e : NodeId)
  | castIfNeeded (wanted actual : Tag) (e : NodeId)
  | buildNeutral (type : Tag)
  | buildNarrow (v : Int64)
  | setSlot (id : NodeId) (i : Nat) (s : Slot)
  | setInt (id : NodeId) (i : Nat) (v : Int64)
  | setChild (id : NodeId) (i : Nat) (c : NodeId)
  | setSpan (id : NodeId) (s : Span)
  | setSymbol (id : NodeId) (s : Option UInt32)
  | setOptInfo (id : NodeId) (o : Option UInt32)
  | free (id : NodeId)
  | freeSlots (slots : List Slot)
  | copy (id : NodeId)
  | copyNode (id : NodeId)
  | copyInto (source : Arena) (id : NodeId)
  | read (text : String)
  | decode (b : Codec.Buffer)
  | decodeFormats (b : Codec.Buffer)
  | decodeAt (b : Codec.Buffer) (pos : Nat)
  | decodeHeader (b : Codec.Buffer)
  | decodeHeaderAt (b : Codec.Buffer) (pos : Nat)
  | placePositions (b : Codec.Buffer) (id : NodeId)

/-- Runs an operation for what it does to the arena. A reader may succeed or fail. -/
def Operation.run : Operation → ArenaM Unit
  | alloc tag count => do let _ ← Arena.alloc tag count
  | push tag slots => do let _ ← Arena.push tag slots
  | build i => do let _ ← Arena.build i
  | buildNodes tag children => do let _ ← Arena.buildNodes tag children
  | buildNumbered tag n children => do let _ ← Arena.buildNumbered tag n children
  | buildBlankGroup n usage => do let _ ← Arena.buildBlankGroup n usage
  | buildBlankSelect op n => do let _ ← Arena.buildBlankSelect op n
  | buildNot e => do let _ ← Arena.buildNot e
  | castIfNeeded wanted actual e => do let _ ← Arena.castIfNeeded wanted actual e
  | buildNeutral type => do let _ ← Arena.buildNeutral type
  | buildNarrow v => do let _ ← Arena.buildNarrow v
  | setSlot id i s => Arena.setSlot id i s
  | setInt id i v => Arena.setInt id i v
  | setChild id i c => Arena.setChild id i c
  | setSpan id s => Arena.setSpan id s
  | setSymbol id s => Arena.setSymbol id s
  | setOptInfo id o => Arena.setOptInfo id o
  | free id => Arena.free id
  | freeSlots slots => Arena.freeSlots slots
  | copy id => do let _ ← Arena.copy id
  | copyNode id => do let _ ← Arena.copyNode id
  | copyInto source id => do let _ ← Arena.copyInto source id
  | read text => do let _ ← Arena.read text
  | decode b => do let _ ← Codec.decode.run.run b
  | decodeFormats b => do let _ ← Codec.decodeFormats.run.run b
  | decodeAt b pos => do let _ ← (Codec.decodeAt pos).run.run b
  | decodeHeader b => do let _ ← Codec.decodeHeader?.run.run b
  | decodeHeaderAt b pos => do let _ ← (Codec.decodeHeaderAt? pos).run.run b
  | placePositions b id => do let _ ← (Codec.placePositions id).run.run b

/-- Some sequence of operations, none of them refused, leads from the empty arena to this one. -/
def Reachable (a : Arena) : Prop :=
  ∃ ops : List Operation, ops.forM Operation.run .empty = .ok ((), a)

/-- Each operation is a run of steps. -/
theorem Operation.run_stepwise (op : Operation) : Stepwise op.run := by
  cases op with
  | alloc tag count => exact .bind (alloc_stepwise tag count) fun _ => .pure _
  | push tag slots => exact .bind (push_stepwise tag slots) fun _ => .pure _
  | build i => exact .bind (build_stepwise i) fun _ => .pure _
  | buildNodes tag children => exact .bind (push_stepwise _ _) fun _ => .pure _
  | buildNumbered tag n children => exact .bind (push_stepwise _ _) fun _ => .pure _
  | buildBlankGroup n usage =>
      exact .bind (.bind (alloc_stepwise _ _) fun _ =>
        .bind (setSlot_stepwise _ _ _) fun _ => .pure _) fun _ => .pure _
  | buildBlankSelect op n =>
      exact .bind (.bind (alloc_stepwise _ _) fun _ =>
        .bind (setSlot_stepwise _ _ _) fun _ => .pure _) fun _ => .pure _
  | buildNot e => exact .bind (build_stepwise _) fun _ => .pure _
  | castIfNeeded wanted actual e =>
      exact .bind (.ite (.pure _) (build_stepwise _)) fun _ => .pure _
  | buildNeutral type =>
      exact .bind (.ite (build_stepwise _)
        (.bind (build_stepwise _) fun _ => build_stepwise _)) fun _ => .pure _
  | buildNarrow v => exact .bind (buildNarrow_stepwise v) fun _ => .pure _
  | setSlot id i s => exact setSlot_stepwise id i s
  | setInt id i v => exact setSlot_stepwise id i (.int v)
  | setChild id i c => exact setSlot_stepwise id i (.code c)
  | setSpan id s => exact setSpan_stepwise id s
  | setSymbol id s => exact setSymbol_stepwise id s
  | setOptInfo id o => exact setOptInfo_stepwise id o
  | free id => exact free_stepwise id
  | freeSlots slots => exact freeSlots_stepwise slots
  | copy id => exact .bind (copy_stepwise id) fun _ => .pure _
  | copyNode id => exact .bind (copyNode_stepwise id) fun _ => .pure _
  | copyInto source id => exact .bind (copyIntoFrom_stepwise source _ id) fun _ => .pure _
  | read text =>
      exact .bind (.bind (SExpr.whole_stepwise _ _) fun _ => .pure _) fun _ => .pure _
  | decode b => exact .bind (Codec.decode_stepwise b) fun _ => .pure _
  | decodeFormats b => exact .bind (Codec.decodeFormats_stepwise b) fun _ => .pure _
  | decodeAt b pos => exact .bind (Codec.decodeAt_stepwise pos b) fun _ => .pure _
  | decodeHeader b => exact .bind (Codec.decodeHeader?_stepwise b) fun _ => .pure _
  | decodeHeaderAt b pos => exact .bind (Codec.decodeHeaderAt?_stepwise pos b) fun _ => .pure _
  | placePositions b id => exact .bind (Codec.placePositions_stepwise id b) fun _ => .pure _

/-- Operations keep an arena well formed as long as the ids have not run out. -/
theorem Reachable.wellFormed (h : Reachable a) (hle : a.capacity ≤ idLimit) : a.WellFormed := by
  obtain ⟨ops, hops⟩ := h
  exact (Stepwise.forM Operation.run_stepwise ops _ _ _ hops).wellFormed hle empty_wellFormed

/-- Wherever operations lead while the ids have not run out, the arena is consistent, and a new node
is refused only if its slots do not fit its tag. Otherwise it comes up under an id that was not live,
a vacant one or not, without notes, and nothing else changes. -/
theorem reachable_consistent (h : Reachable a) (hcapacity : a.capacity < idLimit) :
    a.Consistent ∧
      (∀ tag count, tag.layout.accepts count = true → ∃ id b, alloc tag count a = .ok (id, b)) ∧
      (∀ tag count id b, alloc tag count a = .ok (id, b) →
        Makes a id tag ((tag.layout.kinds count).map Slot.zero) b) ∧
      (∀ tag slots, (Node.bare tag slots).Fits → ∃ id b, push tag slots a = .ok (id, b)) ∧
      ∀ tag slots id b, push tag slots a = .ok (id, b) → Makes a id tag slots b := by
  have hw : a.WellFormed := h.wellFormed (Nat.le_of_lt hcapacity)
  have hroom : a.Room 1 := Nat.le_trans (Nat.succ_le_succ (Nat.sub_le ..)) hcapacity
  -- a new node that fits is made
  have hmakes : ∀ {tag slots id b}, (Node.bare tag slots).Fits → insert tag slots a = .ok (id, b) →
      Makes a id tag slots b := by
    intro tag slots id b hn hins
    obtain ⟨id', b', hins', hadds⟩ := insert_adds hw hroom hn
    cases hins.symm.trans hins'
    exact hadds.makes hw.aligned
  refine ⟨hw.consistent, ?_, ?_, ?_, ?_⟩
  · intro tag count haccepts
    obtain ⟨id, b, hins, -⟩ := insert_adds hw hroom (zeros_fit haccepts)
    exact ⟨id, b, by rw [alloc, if_pos haccepts, hins]⟩
  · intro tag count id b halloc
    obtain ⟨haccepts, hins⟩ := alloc_eq_ok halloc
    exact hmakes (zeros_fit haccepts) hins
  · intro tag slots hfits
    obtain ⟨id, b, hpush, -⟩ := push_adds hw hroom hfits
    exact ⟨id, b, hpush⟩
  · intro tag slots id b hpush
    obtain ⟨hfits, hins⟩ := push_eq_ok hpush
    exact hmakes hfits hins

/-- A reader fails after it has made a node, a node with a span is freed, and another reader fails. The
row of that node still has its tag and its span, but when the id comes up again, neither shows. -/
theorem reachable_consistent_after_failures :
    let a : Arena := ⟨#[.nop, .nop], #[[], []], #[⟨3, 9⟩, .unknown], #[none, none], #[none, none],
      #[false, true], [⟨0⟩]⟩
    Reachable a ∧ a.capacity < idLimit ∧ a.Consistent ∧ a.liveCount = 1 ∧
      ∃ b, push .nil [] a = .ok (⟨0⟩, b) ∧ Makes a ⟨0⟩ .nil [] b := by
  intro a
  have hreach : Reachable a := by
    refine ⟨[.read "(Seq (Nil)", .build .nop, .build .nop, .setSpan ⟨0⟩ ⟨3, 9⟩, .free ⟨0⟩,
      .decode (.ofList [255])], ?_⟩
    rfl
  have hcapacity : a.capacity < idLimit := by decide
  obtain ⟨hconsistent, -, -, -, hmakes⟩ := reachable_consistent hreach hcapacity
  let b : Arena := .ofRows [some (.bare .nil []), some (.bare .nop [])] []
  have hpush : push .nil [] a = .ok (⟨0⟩, b) := rfl
  exact ⟨hreach, hcapacity, hconsistent, rfl, b, hpush, hmakes _ _ _ _ hpush⟩

end Foam.Arena
