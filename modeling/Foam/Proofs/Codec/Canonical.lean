import Foam.Proofs.Arena.Operations
import Foam.Proofs.Codec.Writable

/-!
# Decoding leads to where encoding is exact

What has been decoded has an encoding, and that encoding is decoded to an equal tree, to the last
byte. So the encoding of a decoded tree stands for all byte strings that are decoded to trees equal
to it.

Decoding succeeds only where reading does, and has made a node for every node of the form that was
read (`decode_eq_ok`). Nothing need be known of the room in the arena beforehand: a success has
found it.
-/

namespace Foam

namespace Arena

variable {a b c : Arena} {m n : Nat}

/-- From `a` to `b` the number of live nodes has grown by `n`, unless the ids have run out. -/
structure GrowsBy (a : Arena) (n : Nat) (b : Arena) : Prop where
  capacity_le : a.capacity ≤ b.capacity
  wellFormed : b.capacity ≤ idLimit → a.WellFormed → b.WellFormed
  liveCount : b.capacity ≤ idLimit → a.WellFormed → b.liveCount = a.liveCount + n

namespace GrowsBy

theorem refl (a : Arena) : GrowsBy a 0 a := ⟨Nat.le_refl _, fun _ hw => hw, fun _ _ => rfl⟩

theorem trans (h : GrowsBy a m b) (h' : GrowsBy b n c) : GrowsBy a (m + n) c where
  capacity_le := Nat.le_trans h.capacity_le h'.capacity_le
  wellFormed hle hw := by
    have hb : b.capacity ≤ idLimit := Nat.le_trans h'.capacity_le hle
    exact h'.wellFormed hle (h.wellFormed hb hw)
  liveCount hle hw := by
    have hb : b.capacity ≤ idLimit := Nat.le_trans h'.capacity_le hle
    rw [h'.liveCount hle (h.wellFormed hb hw), h.liveCount hb hw, Nat.add_assoc]

theorem of_push {tag : Tag} {slots : List Slot} {id : NodeId} (h : push tag slots a = .ok (id, b)) :
    GrowsBy a 1 b := by
  obtain ⟨hfits, hinsert⟩ := push_eq_ok h
  refine ⟨(Step.insert hfits hinsert).capacity_le, ?_, ?_⟩
  · exact fun hle hw => (adds_of_insert hw hfits hinsert hle).wellFormed
  · exact fun hle hw => (adds_of_insert hw hfits hinsert hle).liveCount

end GrowsBy

theorem liveCount_le_capacity (a : Arena) : a.liveCount ≤ a.capacity := Nat.sub_le ..

end Arena

namespace Codec

variable {a a' : Arena} {b b' : Buffer}

/-! ## Successes taken apart -/

theorem DecodeM.bind_eq_ok {α β : Type} {x : DecodeM α} {f : α → DecodeM β} {w : β} :
    (x >>= f) b a = .ok ((.ok w, b'), a') ↔
      ∃ v c d, x b a = .ok ((.ok v, c), d) ∧ f v c d = .ok ((.ok w, b'), a') := by
  rw [DecodeM.bind_apply]
  rcases x b a with m | ⟨⟨r, c⟩, d⟩
  · exact ⟨nofun, nofun⟩
  · cases r with
    | error e => exact ⟨nofun, nofun⟩
    | ok v =>
        constructor
        · exact fun h => ⟨v, c, d, rfl, h⟩
        · rintro ⟨v, c, d, hx, h⟩
          cases hx
          exact h

theorem DecodeM.lift_eq_ok {α : Type} {x : ArenaM α} {v : α} :
    (x : DecodeM α) b a = .ok ((.ok v, b'), a') ↔ x a = .ok (v, a') ∧ b = b' := by
  rw [DecodeM.lift_apply]
  rcases x a with m | ⟨w, c⟩
  · exact ⟨nofun, nofun⟩
  · constructor
    · intro h
      cases h
      exact ⟨rfl, rfl⟩
    · rintro ⟨h, rfl⟩
      cases h
      rfl

theorem reading_eq_ok {α : Type} {x : GetM α} {v : α} :
    reading x b a = .ok ((.ok v, b'), a') ↔ x b = (.ok v, b') ∧ a = a' := by
  rw [reading_apply]
  constructor
  · intro h
    obtain ⟨hx, ha⟩ := Prod.mk.inj (Except.ok.inj h)
    exact ⟨hx, ha⟩
  · rintro ⟨hx, rfl⟩
    rw [hx]

section

variable {child : IntFormat → GetM (Tree Extent)} {child' : IntFormat → DecodeM NodeId}
  {head : Head}

theorem decodeSlot_eq_ok
    (hchild : ∀ labels b a id b' a', child' labels b a = .ok ((.ok id, b'), a') →
      ∃ t, child labels b = (.ok t, b') ∧ a.GrowsBy t.size a')
    {labels : IntFormat} {i : Nat} {kind : FieldKind} {s : Slot}
    (h : decodeSlot child' head labels i kind b a = .ok ((.ok s, b'), a')) :
    ∃ f, readField child head labels i kind b = (.ok f, b') ∧
      labelsAfterSlot labels kind s = labelsAfterSlot labels kind f.blank ∧
      a.GrowsBy (Tree.sizeAll [f]) a' := by
  unfold decodeSlot at h
  unfold readField
  by_cases hk : kind = .child
  · subst hk
    rw [if_pos rfl] at h ⊢
    obtain ⟨id, c, d, hid, h⟩ := DecodeM.bind_eq_ok.mp h
    obtain ⟨t, ht, hgrows⟩ := hchild _ _ _ _ _ _ hid
    cases h
    exact ⟨.child t, GetM.bind_ok ht, rfl, by simpa [Tree.sizeAll] using hgrows⟩
  · rw [if_neg hk] at h ⊢
    obtain ⟨hs, rfl⟩ := reading_eq_ok.mp h
    exact ⟨.leaf s, GetM.bind_ok hs, rfl, .refl _⟩

theorem decodeSlots_cons_eq_ok {labels : IntFormat} {i : Nat} {slots done : List Slot}
    {kind : FieldKind} {kinds : List FieldKind}
    (h : decodeSlots child' head labels i done (kind :: kinds) b a = .ok ((.ok slots, b'), a')) :
    ∃ s c d, decodeSlot child' head labels i kind b a = .ok ((.ok s, c), d) ∧
      decodeSlots child' head (labelsAfterSlot labels kind s) (i + 1) (s :: done) kinds c d =
        .ok ((.ok slots, b'), a') := by
  obtain ⟨s, c, d, hs, h⟩ := DecodeM.bind_eq_ok.mp h
  refine ⟨s, c, d, ?_, h⟩
  -- the handler fails again, so a success is that of the slot
  rw [DecodeM.tryCatch_apply] at hs
  rcases hx : decodeSlot child' head labels i kind b a with m | ⟨⟨e | s', c'⟩, d'⟩
  · rw [hx] at hs
    cases hs
  · rw [hx] at hs
    obtain ⟨_, _, _, -, hthrow⟩ := DecodeM.bind_eq_ok.mp hs
    cases hthrow
  · rw [hx] at hs
    exact hs

theorem decodeSlots_eq_ok
    (hchild : ∀ labels b a id b' a', child' labels b a = .ok ((.ok id, b'), a') →
      ∃ t, child labels b = (.ok t, b') ∧ a.GrowsBy t.size a')
    {labels : IntFormat} {i : Nat} {slots done : List Slot} {kinds : List FieldKind}
    (h : decodeSlots child' head labels i done kinds b a = .ok ((.ok slots, b'), a')) :
    ∃ fs, readFields child head labels i kinds b = (.ok fs, b') ∧
      a.GrowsBy (Tree.sizeAll fs) a' := by
  induction kinds generalizing labels i done b a with
  | nil =>
      cases h
      exact ⟨[], rfl, .refl _⟩
  | cons kind kinds ih =>
      obtain ⟨s, c, d, hs, h⟩ := decodeSlots_cons_eq_ok h
      obtain ⟨f, hf, hlabels, hgrows⟩ := decodeSlot_eq_ok hchild hs
      obtain ⟨fs, hfs, hgrows'⟩ := ih h
      rw [hlabels] at hfs
      refine ⟨f :: fs, ?_, ?_⟩
      · exact (GetM.bind_ok hf).trans (GetM.bind_ok hfs)
      · rw [Tree.sizeAll_cons]
        exact hgrows.trans hgrows'

end

theorem decodeFrom_eq_ok {fuel : Nat} {labels : IntFormat} {id : NodeId}
    (h : decodeFrom fuel labels b a = .ok ((.ok id, b'), a')) :
    ∃ t, readFrom fuel labels b = (.ok t, b') ∧ a.GrowsBy t.size a' := by
  induction fuel generalizing labels b a id b' a' with
  | zero =>
      obtain ⟨_, _, _, -, h⟩ := DecodeM.bind_eq_ok.mp h
      cases h
  | succ fuel ih =>
      obtain ⟨head, c, d, hhead, h⟩ := DecodeM.bind_eq_ok.mp h
      obtain ⟨hread, rfl⟩ := reading_eq_ok.mp hhead
      obtain ⟨slots, e, d', hslots, h⟩ := DecodeM.bind_eq_ok.mp h
      obtain ⟨hpush, rfl⟩ := DecodeM.lift_eq_ok.mp h
      obtain ⟨fs, hfs, hgrows⟩ := decodeSlots_eq_ok (fun _ _ _ _ _ _ h => ih h) hslots
      refine ⟨.node ⟨c.pos, e.pos⟩ head.tag fs, ?_, hgrows.trans (.of_push hpush)⟩
      exact (GetM.bind_ok hread).trans (GetM.bind_ok hfs)

/-- A run of decoding on given bytes is told by the root and the arena that it ends in. -/
theorem decode_eq_of_parts {id : NodeId}
    (h : ((decode.run.run b).run a).toOption.map (fun p => (p.1.1.toOption, p.2)) =
      some (some id, a')) :
    ∃ b', (decode.run.run b).run a = .ok ((.ok id, b'), a') := by
  rcases hx : (decode.run.run b).run a with m | ⟨⟨e | v, b'⟩, c⟩
  · rw [hx] at h
    cases h
  · rw [hx] at h
    cases h
  · rw [hx] at h
    obtain ⟨hid, rfl⟩ := Prod.mk.inj (Option.some.inj h)
    obtain rfl := Option.some.inj hid
    exact ⟨b', rfl⟩

/-- A success of decoding is one of reading. The tree that was read has been made in nodes of its
own, if all these have ids. -/
theorem decode_eq_ok {id : NodeId} (hw : a.WellFormed)
    (h : (decode.run.run b).run a = .ok ((.ok id, b'), a')) (hids : a'.capacity ≤ Arena.idLimit) :
    ∃ (s : Tree Extent) (t : Tree NodeId), read b = (.ok s, b') ∧ t.label = id ∧ t.form = s.form ∧
      a.Grows [t] a' := by
  rw [decode_apply] at h
  obtain ⟨s, hread, hgrows⟩ := decodeFrom_eq_ok h
  have hread : read b = (.ok s, b') := hread
  have hroom : RoomFor Tree.size a b (read b) := by
    rw [hread]
    have hlive := hgrows.liveCount hids hw
    have hle := a'.liveCount_le_capacity
    show a.liveCount + s.size ≤ Arena.idLimit
    omega
  have hm := decode_mirrors hw hroom
  rw [hread] at hm
  obtain ⟨t, d, hrun, hform, hmade⟩ := hm
  rw [decode_apply, h] at hrun
  cases hrun
  exact ⟨s, t, hread, rfl, hform, hmade⟩

end Codec

namespace Tree

theorem narrow_of_normal {t : Form} (hfits : t.Fits) (h : t.Obeys Codec.Normal) : t.Narrow := by
  induction t using induct with
  | node l tag fs ih =>
      obtain ⟨-, hfields, hbelow⟩ := obeys_node.mp h
      obtain ⟨-, -, hfitsBelow⟩ := obeys_node.mp hfits
      refine .node ?_ fun t ht => ih t ht (hfitsBelow t ht) (hbelow t ht)
      by_cases htag : tag = .sint
      · subst htag
        obtain ⟨v, rfl⟩ := Fits.sint hfits
        obtain ⟨hv, -⟩ := List.forall₂_cons.mp
          (show List.Forall₂ (Field.Obeys Codec.Normal) [FieldKind.word] [.leaf (.int v)] from hfields)
        exact if_pos (hv.1 rfl v rfl)
      · exact wide?_of_ne_sint htag

end Tree

namespace Codec

/-- What has been decoded has an encoding. It is decoded again to the last byte, as an equal tree
with the same encoding, and it is the encoding of whatever is decoded to an equal tree. -/
theorem encode_decoded {a a' : Arena} {b b' : Buffer} {id : NodeId} (hw : a.WellFormed)
    (hrun : (decode.run.run b).run a = .ok ((.ok id, b'), a'))
    (hids : a'.capacity ≤ Arena.idLimit) : ∃ bytes, encode a' id = pure bytes ∧
      (∀ dst : Arena, dst.WellFormed → dst.Room (a'.liveCount - a.liveCount) → ∃ v c dst',
        (decode.run.run (.ofList bytes)).run dst = .ok ((.ok v, c), dst') ∧
        c.toList = bytes ∧ c.remaining = 0 ∧ a'.equal id dst' v = .ok true ∧
        encode dst' v = pure bytes) ∧
      ∀ (d d' : Arena) (c c' : Buffer) (v : NodeId), d.WellFormed →
        (decode.run.run c).run d = .ok ((.ok v, c'), d') → d'.capacity ≤ Arena.idLimit →
        a'.equal id d' v = .ok true → encode d' v = pure bytes := by
  obtain ⟨s, t, hread, rfl, hform, hgrows⟩ := decode_eq_ok hw hrun hids
  obtain ⟨-, k, -, -, hsound⟩ := read_consumes b s b' hread
  obtain ⟨-, k, -, ⟨bytes, hbytes⟩, hnormal⟩ := read_writable b s b' hread
  have ht : t.In a' := hgrows.placed t List.mem_cons_self
  have hsound : t.form.Sound := hform ▸ s.obeys_form.mpr hsound
  have hfits : t.form.Fits := hsound.imp fun _ _ => Slot.Sound.fits
  have hnormal : t.form.Obeys Normal := hform ▸ s.obeys_form.mpr hnormal
  -- trees of this form have these bytes, in any arena
  have hencode : ∀ {d : Arena} {u : Tree NodeId}, u.In d → u.form = t.form →
      encode d u.label = pure bytes := by
    intro d u hu huform
    rw [Tree.encode_eq hu, huform, Tree.narrowed_eq_self (Tree.narrow_of_normal hfits hnormal), hform]
    exact hbytes
  have hsize : t.form.size = a'.liveCount - a.liveCount := by
    rw [hgrows.liveCount, List.flatMap_singleton, Tree.length_labels, Tree.size_form]
    omega
  refine ⟨bytes, hencode ht rfl, ?_, ?_⟩
  · intro dst hdst hroom
    obtain ⟨s', hread', hform', -⟩ :=
      Tree.read_encode (hsound.imp fun _ _ => And.right) (hform ▸ hbytes) [] []
    rw [Tree.cleared_eq_self (hnormal.imp fun _ _ => And.right)] at hform'
    rw [← hsize, ← hform'] at hroom
    obtain ⟨u, dst', hrun', huform, hgrows'⟩ := decode_of_read hread' hdst hroom
    rw [hform'] at huform
    rw [List.append_nil] at hrun'
    have hu : u.In dst' := hgrows'.placed u List.mem_cons_self
    refine ⟨u.label, .mid bytes [], dst', hrun', by simp [Buffer.mid, Buffer.toList], by simp, ?_,
      hencode hu huform⟩
    rw [Arena.equal_eq hgrows.wellFormed hgrows'.wellFormed ht hu, huform, Tree.equal_false_iff.mpr rfl]
  · intro d d' c c' v hd hrun' hids' hequal
    obtain ⟨-, u, -, rfl, -, hgrows'⟩ := decode_eq_ok hd hrun' hids'
    have hu : u.In d' := hgrows'.placed u List.mem_cons_self
    rw [Arena.equal_eq hgrows.wellFormed hgrows'.wellFormed ht hu] at hequal
    exact hencode hu (Tree.equal_false_iff.mp (Except.ok.inj hequal)).symm

/-- A sequence decoded from the middle of a buffer, with the count and an index in more bytes than
they need, and a zero with a sign and two places. -/
theorem encode_decoded_loose :
    let b : Buffer := .mid [9] [87, 0, 0, 0, 2, 56, 0, 0, 0, 5, 93, 1, 2, 0, 0, 0, 0, 255]
    let a : Arena := .ofRows [some (.bare .nil []), none] [⟨1⟩]
    let a' : Arena := .ofRows [some (.bare .nil []), some (.bare .loc [.int 5]),
      some (.bare .bint [.bint .zero]), some (.bare .seq [.code ⟨1⟩, .code ⟨2⟩])] []
    let bytes : List UInt8 := [243, 95, 5, 132, 0]
    a.WellFormed ∧ (∃ b', (decode.run.run b).run a = .ok ((.ok ⟨3⟩, b'), a')) ∧
      a'.capacity ≤ Arena.idLimit ∧ encode a' ⟨3⟩ = pure bytes ∧ ∃ v c dst',
        (decode.run.run (.ofList bytes)).run .empty = .ok ((.ok v, c), dst') ∧
        c.toList = bytes ∧ c.remaining = 0 ∧ a'.equal ⟨3⟩ dst' v = .ok true ∧
        encode dst' v = pure bytes := by
  intro b a a' bytes
  have hw : a.WellFormed := by decide
  obtain ⟨b', hrun⟩ : ∃ b', (decode.run.run b).run a = .ok ((.ok ⟨3⟩, b'), a') :=
    decode_eq_of_parts (by decide +kernel)
  have hids : a'.capacity ≤ Arena.idLimit := by decide
  obtain ⟨bytes', hbytes, hdecode, -⟩ := encode_decoded hw hrun hids
  have hencode : encode a' ⟨3⟩ = pure bytes := by rfl
  obtain rfl : bytes = bytes' := EncodeM.pure_inj (hencode.symm.trans hbytes)
  exact ⟨hw, ⟨b', hrun⟩, hids, hencode, hdecode .empty Arena.empty_wellFormed (by decide)⟩

end Codec

end Foam
