import Foam.Codec.Unit
import Foam.Proofs.Codec.Canonical

/-!
# Procedure headers

The slots of a procedure that are no children stand before all those that are. So a header is read
off the bytes as decoding would read it, and ends where decoding goes on with the first child. When
the tree at the cursor is no procedure, all that is read is its head, and a variadic node has its
slot count there.
-/

namespace Foam

/-- The slot with null in place of a child. -/
def Slot.withoutChild : Slot → Slot
  | .code _ => .code .null
  | s => s

/-- The node with null for every child, and without notes. -/
def Node.header (n : Node) : Node := .bare n.tag (n.slots.map Slot.withoutChild)

theorem Slot.Sound.withoutChild {k : FieldKind} {s : Slot} (h : s.Sound k) : s.withoutChild = s := by
  cases s with
  | code c => exact absurd rfl (h.ne_code c)
  | _ => rfl

theorem Slot.Sound.code? {k : FieldKind} {s : Slot} (h : s.Sound k) : s.code? = none := by
  cases s with
  | code c => exact absurd rfl (h.ne_code c)
  | _ => rfl

/-- A node that was made and is live has the slots that it was made with. -/
theorem Arena.get?_of_push {a b : Arena} {id : NodeId} {tag : Tag} {slots : List Slot} {n : Node}
    (ha : a.Aligned) (h : push tag slots a = .ok (id, b)) (hn : b.get? id = some n) :
    n = .bare tag slots := by
  obtain ⟨-, h⟩ := push_eq_ok h
  rcases insert_eq_ok h with ⟨rest, -, rfl⟩ | ⟨-, hle, rfl, rfl⟩
  · have hlt : id.index < a.capacity := by simpa using index_lt_of_get? hn
    rw [get?_occupy ha hlt, if_pos rfl] at hn
    exact (Option.some.inj hn).symm
  · rw [ha.tags] at hle hn
    rw [get?_append ha hle, if_pos rfl] at hn
    exact (Option.some.inj hn).symm

namespace Codec

variable {a a' dst : Arena} {b b' c : Buffer} {child : IntFormat → DecodeM NodeId} {head : Head}
  {labels : IntFormat} {i m : Nat} {done slots : List Slot} {kinds : List FieldKind}

/-! ## Children in turn -/

/-- `count` trees, one behind the other. -/
def decodeAll (child : DecodeM NodeId) (count : Nat) : DecodeM (List NodeId) :=
  (List.replicate count ()).mapM fun _ => child

theorem decodeAll_succ (child : DecodeM NodeId) (count : Nat) :
    decodeAll child (count + 1) = do
      let id ← child
      return id :: (← decodeAll child count) := by
  rw [decodeAll, List.replicate_succ, List.mapM_cons]
  rfl

theorem decodeAll_of_decodeSlots
    (h : decodeSlots child head labels i done (List.replicate m .child) b a =
      .ok ((.ok slots, b'), a')) :
    ∃ ids, ids.length = m ∧ decodeAll (child labels) m b a = .ok ((.ok ids, b'), a') ∧
      slots = done.reverse ++ ids.map .code := by
  induction m generalizing i done b a with
  | zero =>
      cases h
      exact ⟨[], rfl, rfl, (List.append_nil _).symm⟩
  | succ m ih =>
      obtain ⟨s, c, d, hs, h⟩ := decodeSlots_cons_eq_ok h
      obtain ⟨id, c', d', hid, hs⟩ := DecodeM.bind_eq_ok.mp hs
      cases hs
      obtain ⟨ids, rfl, hids, rfl⟩ := ih h
      refine ⟨id :: ids, rfl, ?_, ?_⟩
      · rw [decodeAll_succ, DecodeM.bind_ok hid, DecodeM.bind_ok hids]
        rfl
      · rw [List.reverse_cons, List.append_assoc, List.map_cons, List.singleton_append]

/-! ## Slots without children -/

theorem headerSlots_children (head : Head) (labels : IntFormat) (i m : Nat) (b : Buffer) :
    headerSlots head labels i (List.replicate m .child) b =
      (.ok (List.replicate m (.code .null)), b) := by
  induction m generalizing i with
  | zero => rfl
  | succ m ih => exact GetM.bind_ok (ih (i + 1))

/-- Where the children come last, what decoding reads for the slots before them is what the header
has, and the children are decoded from the end of the header on. -/
theorem headerSlots_of_decodeSlots (hkinds : .child ∉ kinds)
    (h : decodeSlots child head labels i done (kinds ++ List.replicate m .child) b a =
      .ok ((.ok slots, b'), a')) :
    ∃ own ids c, List.Forall₂ (fun k s => Slot.Sound k s) kinds own ∧ ids.length = m ∧
      slots = done.reverse ++ own ++ ids.map .code ∧
      headerSlots head labels i (kinds ++ List.replicate m .child) b =
        (.ok (own ++ List.replicate m (.code .null)), c) ∧
      decodeAll (child ((kinds.zip own).foldl labelsAfter labels)) m c a =
        .ok ((.ok ids, b'), a') := by
  induction kinds generalizing labels i done b with
  | nil =>
      obtain ⟨ids, hlength, hids, rfl⟩ := decodeAll_of_decodeSlots h
      refine ⟨[], ids, b, .nil, hlength, ?_, headerSlots_children head labels i m b, hids⟩
      rw [List.append_nil]
  | cons kind kinds ih =>
      rw [List.mem_cons, not_or] at hkinds
      have hk : kind ≠ .child := fun hk => hkinds.1 hk.symm
      obtain ⟨s, c, d, hs, h⟩ := decodeSlots_cons_eq_ok h
      unfold decodeSlot at hs
      rw [if_neg hk] at hs
      obtain ⟨hread, rfl⟩ := reading_eq_ok.mp hs
      obtain ⟨-, -, -, hsound, -⟩ := getScalar_consumes head labels i kind hk b s c hread
      obtain ⟨own, ids, c', hown, hlength, rfl, hheader, hids⟩ := ih hkinds.2 h
      refine ⟨s :: own, ids, c', .cons hsound hown, hlength, ?_, ?_, ?_⟩
      · simp [List.append_assoc]
      · rw [List.cons_append, headerSlots, if_neg hk, GetM.bind_ok hread]
        exact GetM.bind_ok hheader
      · rw [List.zip_cons_cons, List.foldl_cons, ← Tree.labelsAfterSlot_eq]
        exact hids

/-- What is read for the slots of a header fits their kinds. -/
theorem headerSlots_consumes (head : Head) (labels : IntFormat) (i : Nat) (kinds : List FieldKind) :
    Consumes (headerSlots head labels i kinds) fun ss _ =>
      List.Forall₂ (fun k s => s.fits k = true) kinds ss := by
  induction kinds generalizing labels i with
  | nil => exact .pure .nil
  | cons kind kinds ih =>
      have hcons : ∀ s, s.fits kind = true →
          Consumes (return s :: (← headerSlots head (labelsAfterSlot labels kind s) (i + 1) kinds))
            fun ss _ => List.Forall₂ (fun k s => s.fits k = true) (kind :: kinds) ss :=
        fun s hs => (ih _ _).bind fun ss _ hss => .pure (.cons hs hss)
      refine .ite (fun hk => hcons (.code .null) ?_) fun hk => ?_
      · rw [hk]
        rfl
      · exact (getScalar_consumes head labels i kind hk).bind fun s _ hs =>
          (hcons s hs.1.fits).mono fun _ _ hss => hss

/-! ## Outcomes -/

/-- From `b` on a header is read into the arena: one new node, the given one. The cursor is then where
it is in `c`. -/
def GivesHeader (b : Buffer) (a : Arena) (n : Node) (c : Buffer) : Prop :=
  ∃ id a', (decodeHeader?.run.run b).run a = .ok ((.ok (some id), c), a') ∧ a.Adds id n a'

/-- Reading a header from `b` on gives none or an error, and the arena is what it was. -/
def GivesNoHeader (b : Buffer) (a : Arena) : Prop :=
  ∃ r c, (decodeHeader?.run.run b).run a = .ok ((r, c), a) ∧ (r = .ok none ∨ ∃ e, r = .error e)

theorem decodeHeader?_of_slots (hw : a.WellFormed) (hr : a.Room 1) (hhead : getHead b = (.ok head, c))
    (htag : head.tag = .prog)
    (hslots : headerSlots head .word 0 (head.tag.layout.kinds head.count) c = (.ok slots, b')) :
    GivesHeader b a (.bare .prog slots) b' := by
  obtain ⟨-, -, -, -, haccepts⟩ := getHead_consumes b head c hhead
  obtain ⟨-, -, -, hfits⟩ := headerSlots_consumes head .word 0 _ c slots b' hslots
  have hlength : slots.length = head.count := by
    rw [← hfits.length_eq, Layout.length_kinds haccepts]
  have hnode : (Node.bare .prog slots).Fits := by
    rw [← htag]
    refine ⟨?_, ?_⟩
    · show head.tag.layout.accepts slots.length = true
      rwa [hlength]
    · intro k s hs
      rw [Node.fields, Node.bare, hlength] at hs
      exact (List.forall₂_iff_zip.mp hfits).2 hs
  obtain ⟨id, d, hpush, hadds⟩ := Arena.push_adds hw hr hnode
  refine ⟨id, d, ?_, hadds⟩
  have hread : reading getHead b a = .ok ((.ok head, c), a) := reading_eq_ok.mpr ⟨hhead, rfl⟩
  show decodeHeader? b a = _
  rw [decodeHeader?, DecodeM.bind_ok hread, if_pos htag,
    DecodeM.bind_ok (reading_eq_ok.mpr ⟨hslots, rfl⟩),
    DecodeM.bind_ok (DecodeM.lift_eq_ok.mpr ⟨hpush, rfl⟩)]
  rfl

/-- What is no procedure is left behind its head. -/
theorem decodeHeader?_of_ne_prog (hhead : getHead b = (.ok head, c)) (htag : head.tag ≠ .prog) :
    (decodeHeader?.run.run b).run a = .ok ((.ok none, c), a) := by
  show decodeHeader? b a = _
  rw [decodeHeader?, DecodeM.bind_ok (reading_eq_ok.mpr ⟨hhead, rfl⟩), if_neg htag]
  rfl

theorem gives_or_gives_no_header (b : Buffer) (hw : a.WellFormed) (hr : a.Room 1) :
    (∃ slots c, GivesHeader b a (.bare .prog slots) c) ∨ GivesNoHeader b a := by
  rcases hhead : getHead b with ⟨e | head, c⟩
  · refine .inr ⟨.error e, c, ?_, .inr ⟨e, rfl⟩⟩
    have hread : reading getHead b a = .ok ((.error e, c), a) := by rw [reading_apply, hhead]
    exact DecodeM.bind_error hread
  · by_cases htag : head.tag = .prog
    · rcases hslots : headerSlots head .word 0 (head.tag.layout.kinds head.count) c with ⟨e | ss, d⟩
      · refine .inr ⟨.error e, d, ?_, .inr ⟨e, rfl⟩⟩
        have hread : reading getHead b a = .ok ((.ok head, c), a) := reading_eq_ok.mpr ⟨hhead, rfl⟩
        show decodeHeader? b a = _
        rw [decodeHeader?, DecodeM.bind_ok hread, if_pos htag]
        apply DecodeM.bind_error
        rw [reading_apply, hslots]
      · exact .inl ⟨ss, d, decodeHeader?_of_slots hw hr hhead htag hslots⟩
    · exact .inr ⟨.ok none, c, decodeHeader?_of_ne_prog hhead htag, .inl rfl⟩

/-! ## Headers and decoding -/

theorem foldl_labelsAfter_of_notMem {own : List Slot} (h : .labelFormat ∉ kinds) :
    (kinds.zip own).foldl labelsAfter labels = labels := by
  induction kinds generalizing own with
  | nil => rfl
  | cons kind kinds ih =>
      rw [List.mem_cons, not_or] at h
      cases own with
      | nil => rfl
      | cons s own =>
          have hs : labelsAfter labels (kind, s) = labels := by
            cases kind <;> first | rfl | exact absurd rfl h.1
          rw [List.zip_cons_cons, List.foldl_cons, hs]
          exact ih h.2

/-- The children of a procedure are under the label format that its second slot says. -/
theorem foldl_labelsAfter_prog {own : List Slot}
    (h : List.Forall₂ (fun k s => Slot.Sound k s) Tag.prog.layout.fixed own) (labels : IntFormat) :
    ∃ v, own[1]? = some (.int v) ∧
      (Tag.prog.layout.fixed.zip own).foldl labelsAfter labels = .ofLabelCount v.toInt := by
  change List.Forall₂ _ (FieldKind.treeLength :: FieldKind.labelFormat :: _) own at h
  obtain ⟨length, _, -, htail, rfl⟩ := List.forall₂_cons_left_iff.mp h
  obtain ⟨format, rest, hformat, -, rfl⟩ := List.forall₂_cons_left_iff.mp htail
  obtain ⟨v, rfl⟩ := Slot.int_of_fits rfl hformat.fits
  refine ⟨v, rfl, ?_⟩
  have hrest : FieldKind.labelFormat ∉ Tag.prog.layout.fixed.drop 2 := by decide
  exact foldl_labelsAfter_of_notMem hrest

theorem map_withoutChild {own : List Slot} (h : List.Forall₂ (fun k s => Slot.Sound k s) kinds own)
    (ids : List NodeId) : (own ++ ids.map Slot.code).map Slot.withoutChild =
      own ++ List.replicate ids.length (.code .null) := by
  have hown : own.map Slot.withoutChild = own := by
    induction h with
    | nil => rfl
    | cons hs _ ih => rw [List.map_cons, hs.withoutChild, ih]
  have hids : (ids.map Slot.code).map Slot.withoutChild =
      List.replicate ids.length (.code .null) := by
    rw [List.map_map]
    exact List.map_const' ..
  rw [List.map_append, hown, hids]

theorem filterMap_code? {own : List Slot} (h : List.Forall₂ (fun k s => Slot.Sound k s) kinds own)
    (ids : List NodeId) : (own ++ ids.map Slot.code).filterMap Slot.code? = ids := by
  have hown : own.filterMap Slot.code? = [] := by
    induction h with
    | nil => rfl
    | cons hs _ ih => rw [List.filterMap_cons_none hs.code?, ih]
  have hids : (ids.map Slot.code).filterMap Slot.code? = ids := by
    rw [List.filterMap_map]
    exact List.filterMap_some
  rw [List.filterMap_append, hown, hids, List.nil_append]

/-- Reading a header and decoding from the same byte on. Either there is a new node for the header, or
the arena is what it was. If decoding gives a procedure, there is one: it has the slots of that
procedure with null for every child, and from the byte behind it on the children are decoded in turn,
under the label format of the procedure, to the end of the procedure. -/
theorem decodeHeader?_agrees_with_decode (b : Buffer) (hdst : dst.WellFormed) (hroom : dst.Room 1) :
    ((∃ slots c, GivesHeader b dst (.bare .prog slots) c) ∨ GivesNoHeader b dst) ∧
    ∀ (a a' : Arena) (b' : Buffer) (p : NodeId) (n : Node), a.Aligned →
      (decode.run.run b).run a = .ok ((.ok p, b'), a') → a'.get? p = some n → n.tag = .prog →
      ∃ c v ids d, GivesHeader b dst n.header c ∧ c.bytes = b.bytes ∧
        n.slots[1]? = some (.int v) ∧ ids = n.slots.filterMap Slot.code? ∧
        decodeAll (decodeFrom b.remaining (.ofLabelCount v.toInt)) ids.length c a =
          .ok ((.ok ids, b'), d) ∧
        Arena.push .prog n.slots d = .ok (p, a') := by
  refine ⟨gives_or_gives_no_header b hdst hroom, ?_⟩
  intro a a' b' p n ha hrun hp htag
  rw [decode_apply] at hrun
  obtain ⟨head, c₀, d₀, hhead, hrun⟩ := DecodeM.bind_eq_ok.mp hrun
  obtain ⟨hread, rfl⟩ := reading_eq_ok.mp hhead
  obtain ⟨slots, c₁, d, hslots, hrun⟩ := DecodeM.bind_eq_ok.mp hrun
  obtain ⟨hpush, rfl⟩ := DecodeM.lift_eq_ok.mp hrun
  have hsteps : Arena.Steps a d :=
    decodeSlots_stepwise (decodeFrom_stepwise _) _ _ _ _ _ _ _ _ _ hslots
  obtain rfl := Arena.get?_of_push (hsteps.aligned ha) hpush hp
  change head.tag = .prog at htag
  obtain ⟨hbytes, -, -, -, haccepts⟩ := getHead_consumes b head c₀ hread
  -- the children are the tail of the layout, so they come last
  obtain ⟨m, hkinds⟩ : ∃ m, head.tag.layout.kinds head.count =
      Tag.prog.layout.fixed ++ List.replicate m .child := by
    rw [htag] at haccepts ⊢
    have hle : Tag.prog.layout.minSlots ≤ head.count := of_decide_eq_true haccepts
    obtain ⟨m, hm⟩ := Nat.exists_eq_add_of_le hle
    exact ⟨m, by rw [hm, Layout.kinds_of_tail rfl]⟩
  rw [hkinds] at hslots
  obtain ⟨own, ids, c, hown, rfl, rfl, hheader, hids⟩ :=
    headerSlots_of_decodeSlots (by decide) hslots
  obtain ⟨v, hv, hlabels⟩ := foldl_labelsAfter_prog hown .word
  rw [hlabels] at hids
  rw [← hkinds] at hheader
  rw [List.reverse_nil, List.nil_append, htag] at hpush ⊢
  have hids' := filterMap_code? hown ids
  refine ⟨c, v, ids, d, ?_, ?_, ?_, hids'.symm, hids, hpush⟩
  · show GivesHeader b dst (.bare .prog ((own ++ ids.map Slot.code).map Slot.withoutChild)) c
    rw [map_withoutChild hown]
    exact decodeHeader?_of_slots hdst hroom hread htag hheader
  · obtain ⟨hsame, -⟩ := headerSlots_consumes head .word 0 _ c₀ _ c hheader
    rw [hsame, hbytes]
  · rw [Node.bare, List.getElem?_append_left (List.getElem?_eq_some_iff.mp hv).1, hv]

/-- A procedure with three labels and one child, between other bytes. Its header goes into a vacant
row. -/
theorem decodeHeader?_agrees_with_decode_labelled :
    let b : Buffer := .mid [9] [128, 9, 0, 0, 0, 31, 0, 0, 0, 3, 2, 0, 0, 0, 1, 0, 0, 0, 2, 0, 0, 0, 3,
      0, 0, 0, 4, 0, 0, 0, 5, 105, 7, 255]
    let dst : Arena := .ofRows [some (.bare .nil []), none] [⟨1⟩]
    let a : Arena := .ofRows [some (.bare .label [.int 7]),
      some (.bare .prog [.int 0, .int 3, .int 2, .int 1, .int 2, .int 3, .int 4, .int 5, .code ⟨0⟩])] []
    let header : Node := .bare .prog [.int 0, .int 3, .int 2, .int 1, .int 2, .int 3, .int 4, .int 5,
      .code .null]
    dst.WellFormed ∧ dst.Room 1 ∧ ∃ b' c d, (decode.run.run b).run .empty = .ok ((.ok ⟨1⟩, b'), a) ∧
      GivesHeader b dst header c ∧ c.bytes = b.bytes ∧
      decodeAll (decodeFrom b.remaining .byte) 1 c .empty = .ok ((.ok [⟨0⟩], b'), d) := by
  intro b dst a header
  have hw : dst.WellFormed := by decide
  have hr : dst.Room 1 := by decide
  obtain ⟨b', hrun⟩ : ∃ b', (decode.run.run b).run .empty = .ok ((.ok ⟨1⟩, b'), a) :=
    decode_eq_of_parts (by decide +kernel)
  obtain ⟨c, v, ids, d, hgives, hbytes, hv, rfl, hids, -⟩ :=
    (decodeHeader?_agrees_with_decode b hw hr).2 .empty a b' ⟨1⟩ _ Arena.empty_aligned hrun rfl rfl
  obtain rfl : 3 = v := Slot.int.inj (Option.some.inj hv)
  exact ⟨hw, hr, b', c, d, hrun, hgives, hbytes, hids⟩

end Codec

/-! ## Headers of other trees -/

namespace Tree

open Codec

/-- The number of bytes that stand between the tag byte of a form and its slots: those of the slot
count, if the tag is variadic. -/
def countWidth : Form → Nat
  | node _ tag fs =>
    if tag.isVariadic then (IntFormat.ofNode (.bare tag (fs.map Field.blank))).width else 0

theorem length_headBytes {n : Node} {head : List UInt8} (h : headBytes n = pure head) :
    head.length = 1 + if n.tag.isVariadic then (IntFormat.ofNode n).width else 0 := by
  obtain ⟨count, rfl, hcount⟩ := headBytes_eq_pure.mp h
  rw [List.length_cons, Nat.add_comm]
  split at hcount
  · next hv =>
      rw [hcount.2, IntFormat.length_bytes, if_pos hv]
  · next hv =>
      rw [hcount, if_neg hv]
      rfl

/-- The head of a form that has been written ends where its slots begin. -/
theorem getHead_encode {t : Form} (ht : t.Fits) {bytes : List UInt8}
    (h : t.encode .word = pure bytes) (before after : List UInt8) : ∃ head c,
      getHead (.mid before (bytes ++ after)) = (.ok head, c) ∧ head.tag = t.tag ∧
      c.bytes = (Buffer.mid before (bytes ++ after)).bytes ∧
      c.pos = before.length + 1 + t.countWidth := by
  obtain ⟨l, tag, fs⟩ := t
  obtain ⟨head, rest, rfl, hbytes, -, hhead⟩ := head_read ht (by decide) h
  rw [List.append_assoc]
  refine ⟨_, _, hhead before after, rfl, ?_, ?_⟩
  · simp [Buffer.mid]
  · rw [Buffer.pos_mid, List.length_append, length_headBytes hbytes, Nat.add_assoc]
    rfl

/-- No expression in place of a literal is a procedure. -/
theorem tag_narrowed_ne_prog {t : Form} (h : t.tag ≠ .prog) : t.narrowed.tag ≠ .prog := by
  obtain ⟨l, tag, fs⟩ := t
  cases hw : (node l tag fs).wide? with
  | some v =>
      rw [narrowed_of_wide hw]
      refine Literal.form_induct (P := fun u => u.tag ≠ .prog) ?_ ?_ v
      · rintro _ _ ⟨⟩
      · rintro _ _ _ _ ⟨⟩
  | none =>
      rw [narrowed_of_not_wide hw]
      exact h

end Tree

namespace Codec

/-- Reading a header where a tree begins that is no procedure. No node is made, and the cursor stops
behind the tag byte, or behind the slot count where the root of what was written is variadic. -/
theorem decodeHeader?_of_encode {a : Arena} {t : Tree NodeId} {bytes : List UInt8} (hw : a.WellFormed)
    (ht : t.In a) (h : encode a t.label = pure bytes) (htag : t.tag ≠ .prog)
    (before after : List UInt8) (dst : Arena) : ∃ c,
      (decodeHeader?.run.run (.mid before (bytes ++ after))).run dst = .ok ((.ok none, c), dst) ∧
      (∀ b : Buffer, b.bytes = (Buffer.mid before (bytes ++ after)).bytes →
        ((decodeHeaderAt? before.length).run.run b).run dst = .ok ((.ok none, c), dst)) ∧
      c.bytes = (Buffer.mid before (bytes ++ after)).bytes ∧
      c.pos = before.length + 1 + t.form.narrowed.countWidth := by
  rw [Tree.encode_eq ht] at h
  have hfits : t.form.Fits := t.obeys_form.mpr (ht.fits hw)
  have hroot : t.form.narrowed.tag ≠ .prog := by
    apply Tree.tag_narrowed_ne_prog
    obtain ⟨id, tag, fs⟩ := t
    rwa [Tree.form_node]
  obtain ⟨head, c, hhead, hheadTag, hbytes, hpos⟩ :=
    Tree.getHead_encode (hfits.narrowed fun _ _ hs => hs.1.fits) h before after
  rw [← hheadTag] at hroot
  refine ⟨c, decodeHeader?_of_ne_prog hhead hroot, ?_, hbytes, hpos⟩
  intro b hb
  have hseek : b.seek before.length = .mid before (bytes ++ after) := by
    refine Buffer.ext hb ?_
    simp [Buffer.seek, hb, Buffer.mid]
  show decodeHeader? (b.seek before.length) dst = _
  rw [hseek]
  exact decodeHeader?_of_ne_prog hhead hroot

/-- A sequence of one statement, between other bytes. Its count is told by the tag byte. -/
theorem decodeHeader?_of_encode_seq :
    let a : Arena := .ofRows [some (.bare .nop []), some (.bare .seq [.code ⟨0⟩])] []
    let t : Tree NodeId := .node ⟨1⟩ .seq [.child (.node ⟨0⟩ .nop [])]
    let b : Buffer := .mid [9] [204, 15, 255]
    a.WellFormed ∧ t.In a ∧ encode a t.label = pure [204, 15] ∧ t.tag ≠ .prog ∧
      ∃ c, (decodeHeader?.run.run b).run .empty = .ok ((.ok none, c), .empty) ∧
        (∀ d : Buffer, d.bytes = b.bytes →
          ((decodeHeaderAt? 1).run.run d).run .empty = .ok ((.ok none, c), .empty)) ∧
        c.bytes = b.bytes ∧ c.pos = 2 := by
  intro a t b
  have hw : a.WellFormed := by decide
  have ht : t.In a := by decide
  have h : encode a t.label = pure [204, 15] := by rfl
  have htag : t.tag ≠ .prog := by decide
  exact ⟨hw, ht, h, htag, decodeHeader?_of_encode hw ht h htag [9] [255] .empty⟩

/-- So reading a header does not always stop behind the tag byte: the count of a sequence of three
statements is read too. -/
theorem not_decodeHeader?_stops_behind_tag : ¬ ∀ (a : Arena) (t : Tree NodeId) (bytes : List UInt8),
    a.WellFormed → t.In a → t.InTable → encode a t.label = pure bytes → t.tag ≠ .prog →
    ∀ (before after : List UInt8) (dst : Arena), ∃ c,
      (decodeHeader?.run.run (.mid before (bytes ++ after))).run dst = .ok ((.ok none, c), dst) ∧
        c.pos = before.length + 1 := by
  intro h
  let a : Arena := .ofRows [some (.bare .nil []), some (.bare .nil []), some (.bare .nil []),
    some (.bare .seq [.code ⟨0⟩, .code ⟨1⟩, .code ⟨2⟩])] []
  let t : Tree NodeId := .node ⟨3⟩ .seq [.child (.node ⟨0⟩ .nil []), .child (.node ⟨1⟩ .nil []),
    .child (.node ⟨2⟩ .nil [])]
  obtain ⟨c, hrun, hpos⟩ := h a t [126, 3, 0, 0, 0] (by decide) (by decide) (by decide) (by decide +kernel)
    (by decide) [] [] .empty
  have hstops : ((decodeHeader?.run.run (.mid [] ([126, 3, 0, 0, 0] ++ []))).run
      .empty).toOption.map (fun p => p.1.2.pos) = some 2 := by decide +kernel
  rw [hrun] at hstops
  have hpos' : c.pos = 2 := Option.some.inj hstops
  rw [hpos] at hpos'
  cases hpos'

end Codec

end Foam
