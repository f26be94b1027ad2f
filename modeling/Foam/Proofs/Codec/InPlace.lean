import Foam.Proofs.Codec.Header
import Foam.Proofs.Codec.Recoded
import Foam.Proofs.Codec.Skip

/-!
# Encoding in place

A tree can be written to a buffer as it is gone through, without knowing beforehand how long anything
will be. The length of a procedure is first written as zero; when its last byte is there, the cursor
goes back and puts the length over it. What is in the buffer in the end are the bytes that encoding
gives (`writeFrom_writes`, `putTree_eq_inPlace`).
-/

namespace Foam.Codec

/-! ## The writer -/

/-- What has been written, and the format of labels where the cursor is. -/
structure Writer where
  buf : Buffer
  labels : IntFormat

/-- Computations that write as they go. When one fails, what it has written is given up. -/
abbrev WriteM := StateT Writer EncodeM

def emit (bytes : List UInt8) : WriteM Unit := modify fun w => { w with buf := w.buf.put bytes }

/-- Writes one slot, given how to write a child. -/
def writeSlot (tag : Tag) (f : IntFormat) (i : Nat) (child : NodeId → WriteM Unit)
    (kind : FieldKind) : Slot → WriteM Unit
  | .code c => child c
  | s => do
    let w ← get
    emit (← Place.leaf ⟨tag, i, f, w.labels⟩ kind s)

/-- Writes the fields from position `i` on. `lengthAt` is where a length is still missing. -/
def writeFields (tag : Tag) (f : IntFormat) (child : Nat → NodeId → WriteM Unit) :
    (i : Nat) → (lengthAt : Option Nat) → List (FieldKind × Slot) → WriteM (Option Nat)
  | _, lengthAt, [] => return lengthAt
  | i, lengthAt, (kind, s) :: rest => do
    match kind, s with
    | .treeLength, .int _ =>
      let w ← get
      emit (Word.ofInt 4 0)
      writeFields tag f child (i + 1) (some w.buf.pos) rest
    | _, _ =>
      writeSlot tag f i (child i) kind s
      modify fun w => { w with labels := labelsAfter w.labels (kind, s) }
      writeFields tag f child (i + 1) lengthAt rest

/-- Puts the length of all from `lengthAt` on there, and goes back to where the cursor was. -/
def Buffer.patch (b : Buffer) (lengthAt : Nat) : Buffer :=
  ((b.seek lengthAt).put (Word.ofInt 4 (b.pos - lengthAt : Nat))).seek b.pos

def patchLength : Option Nat → WriteM Unit
  | none => return ()
  | some pos => modify fun w => { w with buf := w.buf.patch pos }

/-- Writes all slots of a node. After a procedure the label format is again the one before it. -/
def writeSlots (child : Tag → Nat → NodeId → WriteM Unit) (n : Node) : WriteM Unit := do
  let outer ← get
  writeFields n.tag (.ofNode n) (child n.tag) 0 none n.fields >>= patchLength
  if n.tag = .prog then modify fun w => { w with labels := outer.labels }

def writeNode (child : Tag → Nat → NodeId → WriteM Unit) (n : Node) : WriteM Unit := do
  emit (← headBytes n)
  writeSlots child n

/-- The value of a literal that is too wide to be written as it is. -/
def wideLiteral? (n : Node) : Option Int64 :=
  if n.tag = .sint then (n.slots.head?.bind Slot.int?).filter (!Literal.isNarrow ·) else none

/-- Writes the tree under a node. -/
def writeFrom (wide : Int64 → EncodeM (List UInt8)) (a : Arena) :
    (depth : Nat) → Tag → Nat → NodeId → WriteM Unit
  | 0, _, _, _ => (throw Misuse.cyclic : Checked _)
  | depth + 1, parent, slot, id => do
    if id.isNull then throw (.nullChild parent slot)
    let n ← a.node id
    match wideLiteral? n with
    | some v => emit (← wide v)
    | none => writeNode (writeFrom wide a depth) n

variable {f : IntFormat} {tag : Tag}

theorem get_bind {α : Type} (g : Writer → WriteM α) (w : Writer) : (get >>= g) w = g w w := rfl

/-! ## Writing at the end of a buffer -/

/-- At the end of a buffer `x` appends what `e` gives, and leaves the label format as it was. -/
def Writes (x : WriteM Unit) (e : IntFormat → EncodeM (List UInt8)) : Prop :=
  ∀ before labels, x ⟨.mid before [], labels⟩ = (do
    let bytes ← e labels
    return ((), ⟨.mid (before ++ bytes) [], labels⟩))

theorem emit_apply (before bytes : List UInt8) (labels : IntFormat) :
    emit bytes ⟨.mid before [], labels⟩ = pure ((), ⟨.mid (before ++ bytes) [], labels⟩) := by
  show (pure ((), ⟨(Buffer.mid before []).put bytes, labels⟩) : EncodeM (Unit × Writer)) = _
  rw [Buffer.put_mid, List.drop_nil]

theorem emit_writes (x : EncodeM (List UInt8)) :
    Writes ((x : WriteM (List UInt8)) >>= emit) fun _ => x := by
  intro before labels
  rw [Checked.run_lift_bind]
  simp only [emit_apply]

theorem Writes.bind {x y : WriteM Unit} {e e' : IntFormat → EncodeM (List UInt8)} (h : Writes x e)
    (h' : Writes y e') : Writes (x >>= fun _ => y) fun labels => do
      let bytes ← e labels
      return bytes ++ (← e' labels) := by
  intro before labels
  show (x ⟨.mid before [], labels⟩ >>= fun p => y p.2) = _
  rw [h before labels]
  simp only [bind_assoc, pure_bind]
  refine bind_congr fun bytes => ?_
  rw [h' (before ++ bytes) labels]
  simp only [List.append_assoc]

/-- The bytes after the length stay, and the length counts its own. -/
theorem patch_mid (before bytes : List UInt8) :
    (Buffer.mid (before ++ (Word.ofInt 4 0 ++ bytes)) []).patch before.length =
      .mid (before ++ (Word.ofInt 4 (bytes.length + 4) ++ bytes)) [] := by
  have hfour : ∀ v, (Word.ofInt 4 v).length = 4 := Word.length_ofInt 4
  have hseek : (Buffer.mid (before ++ (Word.ofInt 4 0 ++ bytes)) []).seek before.length =
      .mid before (Word.ofInt 4 0 ++ bytes) := by
    rw [Buffer.seek_pos _ _ _ (by simp), List.take_left, List.drop_left, List.append_nil]
  have hput : ∀ v, (Buffer.mid before (Word.ofInt 4 0 ++ bytes)).put (Word.ofInt 4 v) =
      .mid (before ++ Word.ofInt 4 v) bytes := by
    intro v
    rw [Buffer.put_mid, List.drop_left' ((hfour 0).trans (hfour v).symm)]
  have hpos : (Buffer.mid (before ++ (Word.ofInt 4 0 ++ bytes)) []).pos =
      before.length + (bytes.length + 4) := by
    rw [Buffer.pos_mid, List.length_append, List.length_append, hfour, Nat.add_comm 4]
  rw [Buffer.patch, hseek, hput, hpos, Nat.add_sub_cancel_left]
  have hend := Buffer.seek_mid (before ++ Word.ofInt 4 (bytes.length + 4 : Nat)) bytes []
  rw [List.append_nil, List.length_append, hfour, Nat.add_assoc, Nat.add_comm 4] at hend
  rw [hend, List.append_assoc]
  rfl

theorem patchLength_apply (before bytes : List UInt8) (labels : IntFormat) :
    patchLength (some before.length) ⟨.mid (before ++ Word.ofInt 4 0 ++ bytes) [], labels⟩ =
      pure ((), ⟨.mid (before ++ (Word.ofInt 4 (bytes.length + 4) ++ bytes)) [], labels⟩) := by
  rw [← patch_mid, List.append_assoc]
  rfl

/-! ## Slots and fields -/

section

variable {child : Nat → NodeId → WriteM Unit}
  {encoded : IntFormat → Tag → Nat → NodeId → EncodeM (List UInt8)}

theorem writeSlot_writes {i : Nat} (hchild : ∀ c, Writes (child i c) (encoded · tag i c))
    (kind : FieldKind) (s : Slot) :
    Writes (writeSlot tag f i (child i) kind s) fun labels =>
      Place.slot ⟨tag, i, f, labels⟩ (encoded labels tag i) kind s := by
  cases s with
  | code c => exact hchild c
  | _ =>
    intro before labels
    rw [writeSlot, get_bind, Checked.run_lift_bind]
    · simp only [emit_apply]
      rfl
    · nofun

theorem writeFields_cons {kind : FieldKind} {s : Slot}
    (h : ∀ v, kind = .treeLength → s = .int v → False) (i : Nat) (lengthAt : Option Nat)
    (fs : List (FieldKind × Slot)) :
    writeFields tag f child i lengthAt ((kind, s) :: fs) = (do
      writeSlot tag f i (child i) kind s
      modify fun w => { w with labels := labelsAfter w.labels (kind, s) }
      writeFields tag f child (i + 1) lengthAt fs) := by
  rw [writeFields]
  exact h

theorem joinBytes_of_no_length {own rest : EncodeM (List UInt8)} {kind : FieldKind} {s : Slot}
    (h : ∀ v, kind = .treeLength → s = .int v → False) : joinBytes kind s own rest = (do
      let bytes ← own
      return bytes ++ (← rest)) := by
  unfold joinBytes
  split
  · exact (h _ rfl rfl).elim
  · rfl

/-- A field that is no length is written before the others. -/
theorem writeFields_step (hchild : ∀ i c, Writes (child i c) (encoded · tag i c)) {kind : FieldKind}
    {s : Slot} {fs : List (FieldKind × Slot)} {i : Nat} {lengthAt r : Option Nat}
    (h : ∀ v, kind = .treeLength → s = .int v → False)
    (hrest : ∀ before labels, writeFields tag f child (i + 1) lengthAt fs ⟨.mid before [], labels⟩ =
      (do
        let bytes ← encodeFields encoded ⟨tag, i + 1, f, labels⟩ fs
        return (r, ⟨.mid (before ++ bytes) [], fs.foldl labelsAfter labels⟩)))
    (before : List UInt8) (labels : IntFormat) :
    writeFields tag f child i lengthAt ((kind, s) :: fs) ⟨.mid before [], labels⟩ = (do
      let bytes ← encodeFields encoded ⟨tag, i, f, labels⟩ ((kind, s) :: fs)
      return (r, ⟨.mid (before ++ bytes) [], ((kind, s) :: fs).foldl labelsAfter labels⟩)) := by
  rw [writeFields_cons h, encodeFields_cons, joinBytes_of_no_length h]
  show (writeSlot tag f i (child i) kind s ⟨.mid before [], labels⟩ >>= _) = _
  rw [writeSlot_writes (hchild i) kind s before labels]
  simp only [bind_assoc, pure_bind]
  congr 1
  funext bytes
  show writeFields tag f child (i + 1) lengthAt fs
    ⟨.mid (before ++ bytes) [], labelsAfter labels (kind, s)⟩ = _
  rw [hrest]
  simp only [List.append_assoc, List.foldl_cons]
  rfl

/-- Fields without a length are written one after the other. -/
theorem writeFields_apply (hchild : ∀ i c, Writes (child i c) (encoded · tag i c))
    {fs : List (FieldKind × Slot)} (hfs : ∀ p ∈ fs, p.1 ≠ .treeLength) (i : Nat)
    (lengthAt : Option Nat) (before : List UInt8) (labels : IntFormat) :
    writeFields tag f child i lengthAt fs ⟨.mid before [], labels⟩ = (do
      let bytes ← encodeFields encoded ⟨tag, i, f, labels⟩ fs
      return (lengthAt, ⟨.mid (before ++ bytes) [], fs.foldl labelsAfter labels⟩)) := by
  induction fs generalizing i before labels with
  | nil =>
      rw [encodeFields, pure_bind, List.append_nil]
      rfl
  | cons p fs ih =>
      have hkind : p.1 ≠ .treeLength := hfs p List.mem_cons_self
      exact writeFields_step hchild (fun _ h => absurd h hkind)
        (ih (fun q hq => hfs q (List.mem_cons_of_mem _ hq)) (i + 1)) before labels

/-- A length can only come first. With it put in, the fields are written. -/
theorem patched_apply (hchild : ∀ i c, Writes (child i c) (encoded · tag i c))
    {fs : List (FieldKind × Slot)} (hfs : ∀ p ∈ fs.tail, p.1 ≠ .treeLength)
    (before : List UInt8) (labels : IntFormat) :
    (writeFields tag f child 0 none fs >>= patchLength) ⟨.mid before [], labels⟩ = (do
      let bytes ← encodeFields encoded ⟨tag, 0, f, labels⟩ fs
      return ((), ⟨.mid (before ++ bytes) [], fs.foldl labelsAfter labels⟩)) := by
  show (writeFields tag f child 0 none fs ⟨.mid before [], labels⟩ >>= _) = _
  cases fs with
  | nil =>
      rw [encodeFields, pure_bind, List.append_nil]
      rfl
  | cons p fs =>
      obtain ⟨kind, s⟩ := p
      have hplain : ∀ p ∈ fs, p.1 ≠ .treeLength := hfs
      by_cases h : ∃ v, kind = .treeLength ∧ s = .int v
      · obtain ⟨v, rfl, rfl⟩ := h
        rw [writeFields, get_bind]
        show (emit (Word.ofInt 4 0) ⟨.mid before [], labels⟩ >>= fun p =>
          writeFields tag f child 1 (some before.length) fs p.2) >>= _ = _
        rw [emit_apply, pure_bind]
        show (writeFields tag f child 1 (some before.length) fs
          ⟨.mid (before ++ Word.ofInt 4 0) [], labels⟩ >>= _) = _
        have hjoin : ∀ own rest, joinBytes .treeLength (.int v) own rest = (do
            let bytes ← rest
            return Word.ofInt 4 (bytes.length + 4) ++ bytes) := fun _ _ => rfl
        have hafter : Place.after ⟨tag, 0, f, labels⟩ .treeLength (.int v) = ⟨tag, 1, f, labels⟩ :=
          rfl
        rw [writeFields_apply hchild hplain, encodeFields_cons, hjoin, hafter]
        simp only [bind_assoc, pure_bind]
        refine bind_congr fun bytes => ?_
        exact patchLength_apply before bytes _
      · rw [writeFields_step hchild (fun v hkind hs => h ⟨v, hkind, hs⟩)
          (writeFields_apply hchild hplain 1 none)]
        simp only [bind_assoc, pure_bind]
        rfl

end

/-! ## Nodes and trees -/

theorem treeLength_notMem_tail (tag : Tag) (n : Nat) :
    .treeLength ∉ (tag.layout.kinds n).tail := by
  intro hmem
  cases n with
  | zero => cases hmem
  | succ n =>
      have hkinds : tag.layout.kinds (n + 1) = (tag.layout.kindAt? 0).toList ++
          ((List.range n).map Nat.succ).filterMap tag.layout.kindAt? := by
        rw [Layout.kinds, List.range_succ_eq_map, List.filterMap_cons]
        cases tag.layout.kindAt? 0 <;> rfl
      have hlater : .treeLength ∈ ((List.range n).map Nat.succ).filterMap tag.layout.kindAt? := by
        rw [hkinds] at hmem
        cases h : tag.layout.kindAt? 0 with
        | none =>
            rw [h] at hmem
            exact List.mem_of_mem_tail hmem
        | some kind =>
            rw [h] at hmem
            exact hmem
      obtain ⟨i, hi, hkind⟩ := List.mem_filterMap.mp hlater
      obtain ⟨j, -, rfl⟩ := List.mem_map.mp hi
      exact absurd (Layout.kindAt?_treeLength hkind).2 (Nat.succ_ne_zero j)

theorem ne_treeLength_of_mem_tail {n : Node} {p : FieldKind × Slot} (hp : p ∈ n.fields.tail) :
    p.1 ≠ .treeLength := by
  have htail : n.fields.tail = (n.tag.layout.kinds n.slots.length).tail.zip n.slots.tail := by
    rw [Node.fields]
    cases n.tag.layout.kinds n.slots.length <;> cases n.slots <;> simp
  rw [htail] at hp
  intro hkind
  exact treeLength_notMem_tail n.tag n.slots.length (hkind ▸ (List.of_mem_zip hp).1)

variable {child : Tag → Nat → NodeId → WriteM Unit}
  {encoded : IntFormat → Tag → Nat → NodeId → EncodeM (List UInt8)}

theorem writeSlots_writes (hchild : ∀ tag i c, Writes (child tag i c) (encoded · tag i c))
    (n : Node) : Writes (writeSlots child n) fun labels =>
      encodeFields encoded ⟨n.tag, 0, .ofNode n, labels⟩ n.fields := by
  intro before labels
  rw [writeSlots, get_bind]
  show ((writeFields n.tag (.ofNode n) (child n.tag) 0 none n.fields >>= patchLength)
    ⟨.mid before [], labels⟩ >>= _) = _
  rw [patched_apply (hchild n.tag) fun p hp => ne_treeLength_of_mem_tail hp]
  simp only [bind_assoc, pure_bind]
  refine bind_congr fun bytes => ?_
  split
  · rfl
  · next hprog =>
    rw [Node.fields, foldl_labelsAfter_of_notMem (Tag.labelFormat_notMem hprog _)]
    rfl

theorem writeNode_writes (hchild : ∀ tag i c, Writes (child tag i c) (encoded · tag i c))
    (n : Node) : Writes (writeNode child n) fun labels => encodeNode encoded labels n := by
  have hwritten := (emit_writes (headBytes n)).bind (writeSlots_writes hchild n)
  intro before labels
  rw [bind_assoc] at hwritten
  show _ = (encodeNode encoded labels n >>= _)
  rw [encodeNode_eq]
  exact hwritten before labels

theorem encodeFrom_of_wideLiteral? {wide : Int64 → EncodeM (List UInt8)} {a : Arena} {depth : Nat}
    {labels : IntFormat} {parent : Tag} {slot : Nat} {id : NodeId} {n : Node}
    (hid : id.isNull = false) (hg : a.get? id = some n) :
    encodeFrom wide a (depth + 1) labels parent slot id =
      match wideLiteral? n with
      | some v => wide v
      | none => encodeNode (encodeFrom wide a depth) labels n := by
  rw [Tree.encodeFrom_of_get? hid hg, wideLiteral?]
  by_cases htag : n.tag = .sint
  · rw [if_pos htag, htag]
    cases n.slots with
    | nil => rfl
    | cons s ss =>
        cases s with
        | int v =>
            by_cases hv : Literal.isNarrow v = true
            · simp [Slot.int?, Option.filter, hv]
            · simp [Slot.int?, Option.filter, hv]
        | _ => rfl
  · rw [if_neg htag]
    split
    · next h _ => exact absurd h htag
    · rfl

/-- Going through a tree writes what encoding gives for it. -/
theorem writeFrom_writes (wide : Int64 → EncodeM (List UInt8)) (a : Arena) (depth : Nat)
    (parent : Tag) (slot : Nat) (id : NodeId) :
    Writes (writeFrom wide a depth parent slot id)
      fun labels => encodeFrom wide a depth labels parent slot id := by
  induction depth generalizing parent slot id with
  | zero => exact fun _ _ => rfl
  | succ depth ih =>
      intro before labels
      cases hid : id.isNull with
      | true =>
          rw [writeFrom, hid]
          simp only [encodeFrom, hid]
          rfl
      | false =>
          cases hg : a.get? id with
          | none =>
              simp only [writeFrom, encodeFrom, hid, Arena.node, hg]
              rfl
          | some n =>
              show _ = (encodeFrom wide a (depth + 1) labels parent slot id >>= _)
              rw [encodeFrom_of_wideLiteral? hid hg, writeFrom, hid, Arena.node_of_get? hg]
              show (match wideLiteral? n with
                | some v => (wide v : WriteM (List UInt8)) >>= emit
                | none => writeNode (writeFrom wide a depth) n : WriteM Unit) _ = _
              cases wideLiteral? n with
              | some v => exact emit_writes (wide v) before labels
              | none => exact writeNode_writes ih n before labels

/-- A tree that is written to an empty buffer has its bytes there. -/
theorem putTree_eq_inPlace (b : Buffer) (a : Arena) (id : NodeId) :
    b.putTree a id = (do
      let ((), w) ← (writeFrom encodeWide a (2 * a.depthBound) .nil 0 id).run ⟨.empty, .word⟩
      return b.put w.buf.toList) := by
  have hempty : Buffer.empty = .mid [] [] := Buffer.ext rfl rfl
  show _ = (writeFrom encodeWide a (2 * a.depthBound) .nil 0 id ⟨.empty, .word⟩ >>= _)
  rw [hempty, writeFrom_writes, bind_assoc]
  simp only [pure_bind, List.nil_append, Buffer.toList_mid, List.append_nil]
  rfl

end Foam.Codec
