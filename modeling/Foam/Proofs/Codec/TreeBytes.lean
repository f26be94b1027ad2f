import Foam.Proofs.Codec.Scalar
import Foam.Proofs.Literal.Narrowed

/-!
# The bytes of a form

`Tree.encode` gives the bytes of a form under a label format, or the error that they run into,
without an arena. Encoding a tree of an arena is this, applied to its form with wide literals replaced
(`encode_eq`): ids, sharing and notes make no difference, and the depth bound is never reached.
-/

namespace Foam

namespace Codec

/-! ## Fields -/

/-- The bytes of a slot and of what follows it in the node. A tree length is that of what follows,
its own four bytes included. -/
def joinBytes (kind : FieldKind) (s : Slot) (own rest : EncodeM (List UInt8)) :
    EncodeM (List UInt8) :=
  match kind, s with
  | .treeLength, .int _ => do
    let bytes ← rest
    return Word.ofInt 4 (bytes.length + 4) ++ bytes
  | _, _ => do
    let bytes ← own
    return bytes ++ (← rest)

theorem joinBytes_of_ne {kind : FieldKind} {s : Slot} {own rest : EncodeM (List UInt8)}
    (hk : kind ≠ .treeLength) : joinBytes kind s own rest = (do
      let bytes ← own
      return bytes ++ (← rest)) := by
  cases kind <;> first | rfl | exact absurd rfl hk

/-- The place after a slot. -/
def Place.after (p : Place) (kind : FieldKind) (s : Slot) : Place :=
  { p with index := p.index + 1, labels := labelsAfter p.labels (kind, s) }

/-- The bytes of a slot that is no child. -/
def Place.leaf (p : Place) (kind : FieldKind) (s : Slot) : EncodeM (List UInt8) :=
  p.slot (fun _ => throw (.nullChild p.tag p.index)) kind s

/-- The place of the first field of a node. -/
def Place.first (n : Node) (labels : IntFormat) : Place := ⟨n.tag, 0, .ofNode n, labels⟩

theorem encodeFields_cons {child : IntFormat → Tag → Nat → NodeId → EncodeM (List UInt8)}
    {p : Place} {kind : FieldKind} {s : Slot} {rest : List (FieldKind × Slot)} :
    encodeFields child p ((kind, s) :: rest) =
      joinBytes kind s (p.slot (child p.labels p.tag p.index) kind s)
        (encodeFields child (p.after kind s) rest) := by
  cases kind <;> cases s <;> rfl

theorem encodeNode_eq {child : IntFormat → Tag → Nat → NodeId → EncodeM (List UInt8)}
    {labels : IntFormat} {n : Node} : encodeNode child labels n = do
      let head ← headBytes n
      return head ++ (← encodeFields child (.first n labels) n.fields) := by
  unfold encodeNode headBytes
  by_cases hv : n.tag.isVariadic = true
  · simp only [hv, if_true]
    by_cases hh : (IntFormat.ofNode n).holds n.slots.length = true
    · rw [IntFormat.put, if_pos hh]
      rfl
    · rw [IntFormat.put, if_neg hh]
      rfl
  · simp only [hv]
    rfl

end Codec

namespace Tree

open Codec

mutual
/-- The bytes of a form in a procedure with the given label format. -/
def encode (labels : IntFormat) : Form → EncodeM (List UInt8)
  | node _ tag fs => do
    let n := Node.bare tag (fs.map Field.blank)
    let head ← headBytes n
    return head ++ (← encodeAll (.first n labels) (tag.layout.kinds fs.length) fs)
/-- The bytes of the fields from a place on. -/
def encodeAll (p : Place) : List FieldKind → List (Field Form) → EncodeM (List UInt8)
  | kind :: kinds, .leaf s :: fs =>
    joinBytes kind s (p.leaf kind s) (encodeAll (p.after kind s) kinds fs)
  | kind :: kinds, .child t :: fs => do
    let bytes ← t.encode p.labels
    return bytes ++ (← encodeAll (p.after kind (.code .null)) kinds fs)
  | _, _ => return []
end

/-! ## Literals need no label format -/

theorem encode_bcall {op : Builtin} {args : List Form} {labels labels' : IntFormat}
    (h : ∀ t ∈ args, t.encode labels = t.encode labels') :
    (bcall op args).encode labels = (bcall op args).encode labels' := by
  have hargs : ∀ (i : Nat) (f : IntFormat),
      encodeAll ⟨.bcall, i, f, labels⟩ (List.replicate args.length .child) (args.map .child) =
        encodeAll ⟨.bcall, i, f, labels'⟩ (List.replicate args.length .child)
          (args.map .child) := by
    induction args with
    | nil =>
        intro i f
        rfl
    | cons t args ih =>
        intro i f
        have ih := ih fun u hu => h u (List.mem_cons_of_mem _ hu)
        rw [List.length_cons, List.replicate_succ, List.map_cons, encodeAll, encodeAll,
          h t List.mem_cons_self]
        exact congrArg _ (funext fun bytes => congrArg (· >>= _) (ih (i + 1) f))
  -- the ordinal of the operation comes first, and has one format under any labels
  rw [bcall, encode, encode, List.length_cons, List.length_map, kinds_bcall, encodeAll, encodeAll]
  have htail := hargs 1
  exact congrArg _ (funext fun head => congrArg (· >>= _) (congrArg (joinBytes _ _ _) (htail _)))

theorem encode_literal (v : Int64) (labels labels' : IntFormat) :
    (Literal.form v).encode labels = (Literal.form v).encode labels' :=
  Literal.form_induct (fun _ _ => rfl) (fun _ _ _ h => encode_bcall h) v

/-! ## Encoding a tree encodes its form -/

theorem compressible?_slot (k : FieldKind) (f : Field (Tree NodeId)) :
    compressible? (k, f.slot) = compressible? (k, f.blank) := by
  cases f with
  | leaf s => rfl
  | child t => cases k <;> rfl

theorem filterMap_compressible (kinds : List FieldKind) (fs : List (Field (Tree NodeId))) :
    (kinds.zip (fs.map Field.slot)).filterMap compressible? =
      (kinds.zip (fs.map Field.blank)).filterMap compressible? := by
  rw [List.zip_map_right, List.zip_map_right, List.filterMap_map, List.filterMap_map]
  exact List.filterMap_congr fun p _ => compressible?_slot p.1 p.2

/-- The format of a node, and its bytes before the slots, depend on its payloads only. -/
theorem ofNode_bare {n : Node} {fs : List (Field (Tree NodeId))}
    (hslots : n.slots = fs.map Field.slot) :
    IntFormat.ofNode n = .ofNode (.bare n.tag (fs.map Field.blank)) := by
  have hcompress : compressibles n = compressibles (.bare n.tag (fs.map Field.blank)) := by
    simp only [compressibles, Node.fields, Node.bare, hslots, List.length_map,
      filterMap_compressible]
  rw [IntFormat.ofNode, IntFormat.ofNode, hcompress]
  rfl

theorem headBytes_bare {n : Node} {fs : List (Field (Tree NodeId))}
    (hslots : n.slots = fs.map Field.slot) :
    headBytes n = headBytes (.bare n.tag (fs.map Field.blank)) := by
  unfold headBytes
  rw [ofNode_bare hslots, hslots, List.length_map]
  simp only [Node.bare, List.length_map]

theorem encodeFields_eq {child : IntFormat → Tag → Nat → NodeId → EncodeM (List UInt8)}
    {fs : List (Field (Tree NodeId))} {kinds : List FieldKind} {p : Place}
    (hnull : ∀ labels tag i, child labels tag i .null = throw (.nullChild tag i))
    (hleaf : ∀ s, .leaf s ∈ fs → s.child? = none)
    (hchild : ∀ t, .child t ∈ fs → ∀ labels tag i,
      child labels tag i t.label = t.form.narrowed.encode labels) :
    encodeFields child p (kinds.zip (fs.map Field.slot)) =
      encodeAll p kinds ((fs.map (Field.map form)).map (Field.map narrowed)) := by
  induction fs generalizing kinds p with
  | nil => cases kinds <;> rfl
  | cons f fs ih =>
      cases kinds with
      | nil => rfl
      | cons kind kinds =>
          have ih := fun p => @ih kinds p (fun s hs => hleaf s (List.mem_cons_of_mem _ hs))
            (fun t ht => hchild t (List.mem_cons_of_mem _ ht))
          rw [List.map_cons, List.zip_cons_cons, encodeFields_cons, ih]
          cases f with
          | leaf s =>
              have hown : p.slot (child p.labels p.tag p.index) kind s = p.leaf kind s := by
                cases s with
                | code c =>
                    -- an absent child ends in the same error on both sides
                    rw [Arena.null_of_child? (hleaf _ List.mem_cons_self)]
                    exact hnull ..
                | _ => rfl
              rw [Field.slot, hown]
              rfl
          | child t =>
              have hjoin : ∀ own rest, joinBytes kind (.code t.label) own rest =
                  (do
                    let bytes ← own
                    return bytes ++ (← rest)) := by
                intro own rest
                cases kind <;> rfl
              have hafter : p.after kind (.code t.label) = p.after kind (.code .null) := by
                cases kind <;> rfl
              rw [Field.slot, hjoin, hafter]
              show (child p.labels p.tag p.index t.label >>= _) = _
              rw [hchild t List.mem_cons_self]
              rfl

theorem encode_node {l : Unit} {tag : Tag} {fs : List (Field Form)} {labels : IntFormat} :
    (node l tag fs).encode labels = (do
      let head ← headBytes (.bare tag (fs.map Field.blank))
      return head ++ (← encodeAll (.first (.bare tag (fs.map Field.blank)) labels)
        (tag.layout.kinds fs.length) fs)) := by
  rw [encode]

theorem encodeNode_tree {child : IntFormat → Tag → Nat → NodeId → EncodeM (List UInt8)}
    {labels : IntFormat} {n : Node} {fs : List (Field (Tree NodeId))}
    (hslots : n.slots = fs.map Field.slot)
    (hnull : ∀ labels tag i, child labels tag i .null = throw (.nullChild tag i))
    (hleaf : ∀ s, .leaf s ∈ fs → s.child? = none)
    (hchild : ∀ t, .child t ∈ fs → ∀ labels tag i,
      child labels tag i t.label = t.form.narrowed.encode labels) :
    encodeNode child labels n =
      (node () n.tag ((fs.map (Field.map form)).map (Field.map narrowed))).encode labels := by
  rw [encodeNode_eq, encode_node, headBytes_bare hslots, Place.first, ofNode_bare hslots,
    Node.fields, hslots, encodeFields_eq hnull hleaf hchild]
  simp only [List.length_map, List.map_map]
  have hblank : Field.blank ∘ Field.map narrowed ∘ Field.map form =
      (Field.blank : Field (Tree NodeId) → Slot) := by
    funext f
    cases f <;> rfl
  rw [hblank]
  rfl

/-- The encoder at a live node. -/
theorem encodeFrom_of_get? {wide : Int64 → EncodeM (List UInt8)} {a : Arena} {depth : Nat}
    {labels : IntFormat} {parent : Tag} {slot : Nat} {id : NodeId} {n : Node}
    (hid : id.isNull = false) (hg : a.get? id = some n) :
    encodeFrom wide a (depth + 1) labels parent slot id =
      match n.tag, n.slots with
      | .sint, .int v :: _ =>
        if Literal.isNarrow v then encodeNode (encodeFrom wide a depth) labels n else wide v
      | _, _ => encodeNode (encodeFrom wide a depth) labels n := by
  rw [encodeFrom, hid, Arena.node_of_get? hg]
  rfl

/-- Whether the encoder takes a node for a wide literal. -/
theorem encodeFrom_succ {wide : Int64 → EncodeM (List UInt8)} {a : Arena} {depth : Nat}
    {labels : IntFormat} {parent : Tag} {slot : Nat} {id : NodeId} {n : Node}
    {fs : List (Field (Tree NodeId))} (hid : id.isNull = false) (hg : a.get? id = some n)
    (hslots : n.slots = fs.map Field.slot) :
    encodeFrom wide a (depth + 1) labels parent slot id =
      match wide? (node id n.tag fs) with
      | some v => wide v
      | none => encodeNode (encodeFrom wide a depth) labels n := by
  rw [encodeFrom_of_get? hid hg]
  by_cases htag : n.tag = .sint
  · rw [htag, hslots]
    cases fs with
    | nil => rfl
    | cons f fs =>
        cases f with
        | leaf s =>
            cases s with
            | int v =>
                rw [wide?]
                by_cases hv : Literal.isNarrow v = true
                · simp [Field.slot, hv]
                · simp [Field.slot, hv]
            | _ => rfl
        | child t => rfl
  · rw [wide?_of_ne_sint (t := node id n.tag fs) htag]
    split
    · next h _ => exact absurd h htag
    · rfl

theorem encodeFrom_eq {wide : Int64 → EncodeM (List UInt8)} {a : Arena} {t : Tree NodeId}
    (ht : t.In a)
    (hwide : t.Every fun u => ∀ v, u.wide? = some v → ∀ labels,
      wide v = (Literal.form v).encode labels)
    {depth : Nat} (hd : t.height < depth) (labels : IntFormat) (parent : Tag) (slot : Nat) :
    encodeFrom wide a depth labels parent slot t.label = t.form.narrowed.encode labels := by
  induction t generalizing depth labels parent slot with
  | node id tag fs ih =>
      obtain ⟨hwroot, hwbelow⟩ := every_node.mp hwide
      obtain ⟨d, rfl⟩ : ∃ d, depth = d + 1 := ⟨depth - 1, by omega⟩
      have hpos : 0 < d := by
        have : (Tree.node id tag fs).height = Tree.heightAll fs + 1 := rfl
        omega
      obtain ⟨n, hg, rfl, hslots⟩ := ht.get?
      -- null is not followed, so it takes any depth but zero
      have hnull : ∀ labels tag i, encodeFrom wide a d labels tag i .null =
          throw (.nullChild tag i) := by
        obtain ⟨e, rfl⟩ := Nat.exists_eq_add_of_lt hpos
        intro labels tag i
        rw [Nat.zero_add]
        rfl
      have hchild : ∀ t, .child t ∈ fs → ∀ labels tag i,
          encodeFrom wide a d labels tag i t.label = t.form.narrowed.encode labels := by
        intro t hmem
        have := height_lt id n.tag hmem
        exact ih t hmem (ht.child hmem) (hwbelow t hmem) (by omega)
      have hform : (node id n.tag fs).form.wide? = (node id n.tag fs).wide? := by
        rw [form_node]
        exact wide?_map form
      have hid : id.isNull = false := ht.label_not_null
      rw [Tree.label, encodeFrom_succ hid hg hslots]
      cases hw : (node id n.tag fs).wide? with
      | some v =>
          rw [narrowed_of_wide (hform.trans hw)]
          exact hwroot v hw labels
      | none =>
          rw [form_node] at hform ⊢
          rw [narrowed_of_not_wide (hform.trans hw)]
          exact encodeNode_tree hslots hnull (fun s hs => ht.leaf hs) hchild

/-- What stands for a literal has no wide literal in turn, so how those are encoded is never asked. -/
theorem encodeFrom_literal {wide : Int64 → EncodeM (List UInt8)} {a : Arena} {t : Tree NodeId}
    {v : Int64} (ht : t.In a) (hform : t.form = Literal.form v) {depth : Nat} (hd : t.height < depth)
    (labels : IntFormat) (parent : Tag) (slot : Nat) :
    encodeFrom wide a depth labels parent slot t.label = (Literal.form v).encode labels := by
  have hnarrow : t.Narrow := narrow_of_form (hform ▸ narrow_literal v)
  have hwide : t.Every fun u => ∀ v, u.wide? = some v → ∀ labels,
      wide v = (Literal.form v).encode labels := by
    apply hnarrow.imp
    intro u hu v hv
    rw [hu] at hv
    cases hv
  rw [encodeFrom_eq ht hwide hd, hform, narrowed_eq_self (narrow_literal v)]

/-- A wide literal is encoded as the expression that stands for it. -/
theorem encodeWide_eq (v : Int64) (labels : IntFormat) :
    encodeWide v = (Literal.form v).encode labels := by
  have hroom : Arena.empty.Room (Literal.form v).size :=
    Nat.le_trans (Nat.add_le_add_left (Literal.size_form_le v) _) (by decide)
  obtain ⟨t, a, ha, hform, hgrows⟩ := Literal.buildNarrow_grows Arena.empty_wellFormed v hroom
  have ht : t.In a := hgrows.placed t List.mem_cons_self
  have hrun : encodeWide v = encodeFrom (fun w => throw (.outOfRange .sint 0 .word w.toInt)) a
      a.depthBound .word .nil 0 t.label := by
    unfold encodeWide
    show (Except.bind (Except.map Except.ok (Arena.buildNarrow v .empty)) _ : Checked _) = _
    rw [ha]
    rfl
  rw [hrun, encodeFrom_literal ht hform ht.height_lt_depthBound, encode_literal v .word labels]

/-- Encoding a tree gives the bytes of its form with wide literals replaced. -/
theorem encode_eq {a : Arena} {t : Tree NodeId} (ht : t.In a) :
    Codec.encode a t.label = t.form.narrowed.encode .word := by
  have hheight := ht.height_lt_depthBound
  have hwide : t.Every fun u => ∀ v, u.wide? = some v → ∀ labels,
      encodeWide v = (Literal.form v).encode labels :=
    Every.imp (fun u _ v _ labels => encodeWide_eq v labels) ht
  exact encodeFrom_eq ht hwide (by omega) _ _ _

/-! ## What a successful encoding has written -/

/-- The bytes of the fields of a node from a place on, field by field. -/
inductive Written : Place → List FieldKind → List (Field Form) → List UInt8 → Prop
  | nil (p : Place) : Written p [] [] []
  | leaf {p : Place} {kind : FieldKind} {kinds : List FieldKind} {s : Slot}
      {fs : List (Field Form)} {own rest : List UInt8} : kind ≠ .treeLength → s.Sound kind →
      p.leaf kind s = pure own → Written (p.after kind s) kinds fs rest →
      Written p (kind :: kinds) (.leaf s :: fs) (own ++ rest)
  | treeLength {p : Place} {kinds : List FieldKind} {v : Int64} {fs : List (Field Form)}
      {rest : List UInt8} : Written (p.after .treeLength (.int v)) kinds fs rest →
      Written p (.treeLength :: kinds) (.leaf (.int v) :: fs)
        (Word.ofInt 4 (rest.length + 4) ++ rest)
  | child {p : Place} {kinds : List FieldKind} {t : Form} {fs : List (Field Form)}
      {bytes rest : List UInt8} : t.encode p.labels = pure bytes →
      Written (p.after .child (.code .null)) kinds fs rest →
      Written p (.child :: kinds) (.child t :: fs) (bytes ++ rest)

theorem encode_eq_pure {l : Unit} {tag : Tag} {fs : List (Field Form)} {labels : IntFormat}
    {bytes : List UInt8} (h : (node l tag fs).encode labels = pure bytes) :
    ∃ head rest, headBytes (.bare tag (fs.map Field.blank)) = pure head ∧
      encodeAll (.first (.bare tag (fs.map Field.blank)) labels) (tag.layout.kinds fs.length) fs =
        pure rest ∧ bytes = head ++ rest := by
  rw [encode_node] at h
  obtain ⟨head, hhead, h⟩ := EncodeM.bind_eq_pure.mp h
  obtain ⟨rest, hrest, h⟩ := EncodeM.bind_eq_pure.mp h
  exact ⟨head, rest, hhead, hrest, (EncodeM.pure_inj h).symm⟩

theorem joinBytes_eq_pure {kind : FieldKind} {s : Slot} {own rest : EncodeM (List UInt8)}
    {bytes : List UInt8} (h : joinBytes kind s own rest = pure bytes) (hk : kind ≠ .treeLength) :
    ∃ l m, own = pure l ∧ rest = pure m ∧ bytes = l ++ m := by
  rw [joinBytes_of_ne hk] at h
  obtain ⟨l, hl, h⟩ := EncodeM.bind_eq_pure.mp h
  obtain ⟨m, hm, h⟩ := EncodeM.bind_eq_pure.mp h
  exact ⟨l, m, hl, hm, (EncodeM.pure_inj h).symm⟩

/-- The bytes of a payload at a place. A tree length has four. -/
def PayloadBytes (p : Place) (kind : FieldKind) (s : Slot) (own : List UInt8) : Prop :=
  if kind = .treeLength then own.length = 4 else p.leaf kind s = pure own

/-- An absent child has no bytes. -/
theorem PayloadBytes.ne_child {p : Place} {kind : FieldKind} {s : Slot} {own : List UInt8}
    (hs : s.fits kind = true) (h : PayloadBytes p kind s own) : kind ≠ .child := by
  rintro rfl
  obtain ⟨c, rfl⟩ := Slot.code_of_fits hs
  exact EncodeM.throw_ne_pure h

theorem encodeAll_leaf {p : Place} {kind : FieldKind} {kinds : List FieldKind} {s : Slot}
    {fs : List (Field Form)} {bytes : List UInt8} (hs : s.fits kind = true)
    (h : encodeAll p (kind :: kinds) (.leaf s :: fs) = pure bytes) : ∃ own rest,
      PayloadBytes p kind s own ∧ encodeAll (p.after kind s) kinds fs = pure rest ∧
      bytes = own ++ rest := by
  rw [encodeAll] at h
  by_cases hk : kind = .treeLength
  · subst hk
    obtain ⟨v, rfl⟩ := Slot.int_of_fits rfl hs
    obtain ⟨rest, hrest, h⟩ := EncodeM.bind_eq_pure.mp h
    obtain rfl := EncodeM.pure_inj h
    exact ⟨_, rest, Word.length_ofInt .., hrest, rfl⟩
  · obtain ⟨own, rest, hown, hrest, rfl⟩ := joinBytes_eq_pure h hk
    exact ⟨own, rest, (if_neg hk).mpr hown, hrest, rfl⟩

theorem encodeAll_child {p : Place} {kind : FieldKind} {kinds : List FieldKind} {t : Form}
    {fs : List (Field Form)} {bytes : List UInt8}
    (h : encodeAll p (kind :: kinds) (.child t :: fs) = pure bytes) : ∃ own rest,
      t.encode p.labels = pure own ∧ encodeAll (p.after kind (.code .null)) kinds fs = pure rest ∧
      bytes = own ++ rest := by
  rw [encodeAll] at h
  obtain ⟨own, hown, h⟩ := EncodeM.bind_eq_pure.mp h
  obtain ⟨rest, hrest, h⟩ := EncodeM.bind_eq_pure.mp h
  exact ⟨own, rest, hown, hrest, (EncodeM.pure_inj h).symm⟩

/-- The bytes of a child are among those of the fields. -/
theorem exists_encode_le {p : Place} {kinds : List FieldKind} {fs : List (Field Form)}
    {bytes : List UInt8} (hfits : List.Forall₂ (Field.Obeys fun k s => s.fits k = true) kinds fs)
    (h : encodeAll p kinds fs = pure bytes) {t : Form} (ht : .child t ∈ fs) :
    ∃ labels own, t.encode labels = pure own ∧ own.length ≤ bytes.length := by
  induction hfits generalizing p bytes with
  | nil => cases ht
  | @cons kind f kinds fs hf _ ih =>
      cases f with
      | leaf s =>
          obtain ⟨own, rest, -, hrest, rfl⟩ := encodeAll_leaf hf h
          obtain ⟨labels, l, hl, hle⟩ := ih hrest (by simpa using ht)
          rw [List.length_append]
          exact ⟨labels, l, hl, by omega⟩
      | child u =>
          obtain ⟨own, rest, hown, hrest, rfl⟩ := encodeAll_child h
          rw [List.length_append]
          rcases List.mem_cons.mp ht with ht | ht
          · cases ht
            exact ⟨_, own, hown, by omega⟩
          · obtain ⟨labels, l, hl, hle⟩ := ih hrest ht
            exact ⟨labels, l, hl, by omega⟩

/-- What fits and is in its table and has been written is sound: an absent child has no bytes. -/
theorem written_of_encodeAll {p : Place} {kinds : List FieldKind} {fs : List (Field Form)}
    {bytes : List UInt8}
    (hf : List.Forall₂ (Field.Obeys fun k s => s.Valid k) kinds fs)
    (h : encodeAll p kinds fs = pure bytes) : Written p kinds fs bytes := by
  induction hf generalizing p bytes with
  | nil =>
      obtain rfl := EncodeM.pure_inj h
      exact .nil p
  | @cons kind f kinds fs hkf _ ih =>
      cases f with
      | leaf s =>
          rw [encodeAll] at h
          by_cases hk : kind = .treeLength
          · subst hk
            cases s with
            | int v =>
                obtain ⟨rest, hrest, h⟩ := EncodeM.bind_eq_pure.mp h
                obtain rfl := EncodeM.pure_inj h
                exact .treeLength (ih hrest)
            | _ => cases hkf.1
          · obtain ⟨own, rest, hown, hrest, rfl⟩ := joinBytes_eq_pure h hk
            refine .leaf hk ⟨?_, hkf⟩ hown (ih hrest)
            -- a payload where a child is asked for is null, which has no bytes
            rintro rfl
            cases s with
            | code c => exact EncodeM.throw_ne_pure hown
            | _ => cases hkf.1
      | child t =>
          obtain rfl : kind = .child := hkf
          obtain ⟨own, rest, hown, hrest, rfl⟩ := encodeAll_child h
          exact .child hown (ih hrest)

/-- Fields that have been written are sound. -/
theorem Written.sound {p : Place} {kinds : List FieldKind} {fs : List (Field Form)}
    {bytes : List UInt8} (h : Written p kinds fs bytes) :
    List.Forall₂ (Field.Obeys fun k s => s.Sound k) kinds fs := by
  induction h with
  | nil p => exact .nil
  | leaf _ hs _ _ ih => exact .cons hs ih
  | treeLength _ ih => exact .cons ⟨by decide, rfl, rfl⟩ ih
  | child _ _ ih => exact .cons rfl ih

/-- A form whose bytes exist is sound. -/
theorem sound_of_encode {t : Form} (ht : t.Valid) {labels : IntFormat} {bytes : List UInt8}
    (h : t.narrowed.encode labels = pure bytes) : t.Sound := by
  induction t using induct generalizing labels bytes with
  | node l tag fs ih =>
      cases hw : (node l tag fs).wide? with
      | some v =>
          obtain rfl : tag = .sint := tag_of_wide hw
          obtain ⟨v, rfl⟩ := Fits.sint (ht.imp fun _ _ => And.left)
          exact (plain_sint v).imp fun _ _ => And.left
      | none =>
          obtain ⟨haccepts, hvalid, hbelow⟩ := obeys_node.mp ht
          rw [narrowed_of_not_wide hw] at h
          obtain ⟨head, rest, -, hrest, -⟩ := encode_eq_pure h
          rw [List.length_map] at hrest
          have hwritten : Written _ (tag.layout.kinds fs.length) (fs.map (Field.map narrowed))
              rest :=
            written_of_encodeAll (List.forall₂_map_right_iff.mpr
              (hvalid.imp fun _ _ => Field.obeys_map.mpr)) hrest
          refine obeys_node.mpr ⟨haccepts, (List.forall₂_map_right_iff.mp hwritten.sound).imp
            fun _ _ => Field.obeys_map.mp, ?_⟩
          intro t ht
          obtain ⟨labels', l', hl, -⟩ := exists_encode_le (hwritten.sound.imp fun _ _ =>
            Field.Obeys.imp fun _ _ => Slot.Sound.fits) hrest (child_mem_map.mpr ⟨t, ht, rfl⟩)
          exact ih t ht (hbelow t ht) hl

/-- The bytes of children alone are theirs one after the other. -/
theorem Written.children {p : Place} {ts : List Form} {bytes : List UInt8}
    (h : Written p (List.replicate ts.length .child) (ts.map .child) bytes) :
    ∃ ls, List.Forall₂ (fun t l => t.encode p.labels = pure l) ts ls ∧ bytes = ls.flatten := by
  induction ts generalizing p bytes with
  | nil =>
      cases h
      exact ⟨[], .nil, rfl⟩
  | cons t ts ih =>
      cases h with
      | child hbytes hrest =>
          obtain ⟨ls, hls, rfl⟩ := ih hrest
          exact ⟨_ :: ls, .cons hbytes hls, rfl⟩

end Tree

end Foam
