import Foam.Proofs.Codec.RoundTrip

/-!
# Ordinals past their tables

Encoding asks of an ordinal that it fits its bytes, decoding that it is in its table. So the bytes
of a tree are decoded if every ordinal in it is, and else end in the error of the first that is not:
reading gets as far as that slot, and no other field can stop it before.
-/

namespace Foam

/-- A slot whose ordinal is past the table that its kind names. -/
structure Stray where
  tag : Tag
  slot : Nat
  sort : NameSort
  value : Nat
  deriving DecidableEq

namespace Stray

/-- The error that decoding ends in at such a slot. -/
def error (s : Stray) : Codec.DecodeError := .badOrdinal s.tag s.slot s.sort s.value

def ofOrdinal? (α : Type) [Table α] (sort : NameSort) (tag : Tag) (i : Nat) (v : Int64) :
    Option Stray :=
  if (Table.ofOrdinal? v.toInt : Option α).isSome then none else some ⟨tag, i, sort, v.toInt.toNat⟩

/-- Slot `i` of a node, if it is stray. -/
def ofSlot? (tag : Tag) (i : Nat) : FieldKind → Slot → Option Stray
  | .typeTag, .int v => ofOrdinal? Tag .type tag i v
  | .builtin, .int v => ofOrdinal? Builtin .builtin tag i v
  | .protocol, .int v => ofOrdinal? Protocol .protocol tag i v
  | .declUsage, .int v => ofOrdinal? Usage .usage tag i v
  | _, _ => none

theorem ofOrdinal?_eq_none {α : Type} [Table α] {sort : NameSort} {tag : Tag} {i : Nat}
    {v : Int64} :
    ofOrdinal? α sort tag i v = none ↔ (Table.ofOrdinal? v.toInt : Option α).isSome = true := by
  unfold ofOrdinal?
  split <;> simp_all

theorem ofSlot?_eq_none {tag : Tag} {i : Nat} {kind : FieldKind} {s : Slot} :
    ofSlot? tag i kind s = none ↔ s.inTable kind = true := by
  cases s with
  | int v =>
      cases kind with
      | typeTag | builtin | protocol | declUsage => exact ofOrdinal?_eq_none
      | _ => exact iff_of_true rfl rfl
  | _ => cases kind <;> exact iff_of_true rfl rfl

end Stray

namespace Tree

mutual
/-- The first stray slot in the order of the bytes. -/
def stray? : Form → Option Stray
  | node _ tag fs => strayFrom? tag 0 (tag.layout.kinds fs.length) fs
def strayFrom? (tag : Tag) : (i : Nat) → List FieldKind → List (Field Form) → Option Stray
  | i, kind :: kinds, .leaf s :: fs =>
    (Stray.ofSlot? tag i kind s).or (strayFrom? tag (i + 1) kinds fs)
  | i, _ :: kinds, .child t :: fs => t.stray?.or (strayFrom? tag (i + 1) kinds fs)
  | _, _, _ => none
end

theorem strayFrom?_eq_none {tag : Tag} {kinds : List FieldKind} {fs : List (Field Form)} {i : Nat}
    (hlen : kinds.length = fs.length) : strayFrom? tag i kinds fs = none ↔
      (∀ k s, (k, s) ∈ kinds.zip (fs.map Field.blank) → s.inTable k = true) ∧
        ∀ t, .child t ∈ fs → t.stray? = none := by
  induction fs generalizing kinds i with
  | nil =>
      obtain rfl := List.length_eq_zero_iff.mp hlen
      simp [strayFrom?]
  | cons f fs ih =>
      obtain ⟨kind, kinds, rfl⟩ := List.exists_cons_of_length_eq_add_one hlen
      have ih := @ih kinds (i + 1) (Nat.succ.inj hlen)
      cases f with
      | leaf s =>
          rw [strayFrom?, Option.or_eq_none_iff, Stray.ofSlot?_eq_none, ih]
          simp [Field.blank, or_imp, forall_and, and_assoc]
      | child t =>
          have hnull : Slot.inTable kind (.code .null) = true := by cases kind <;> rfl
          rw [strayFrom?, Option.or_eq_none_iff, ih]
          simp [Field.blank, or_imp, forall_and, hnull, and_left_comm]

theorem stray?_eq_none {t : Form} (h : t.Fits) : t.stray? = none ↔ t.InTable := by
  induction t using induct with
  | node l tag fs ih =>
      obtain ⟨haccepts, -, hbelow⟩ := obeys_node.mp h
      rw [stray?, strayFrom?_eq_none (Layout.length_kinds haccepts), InTable, Payloads, every_node]
      refine and_congr Iff.rfl ?_
      exact forall₂_congr fun t ht => ih t ht (hbelow t ht)

theorem strayFrom?_map {tag : Tag} {kinds : List FieldKind} {fs : List (Field Form)} {i : Nat}
    {f : Form → Form} (h : ∀ t, .child t ∈ fs → (f t).stray? = t.stray?) :
    strayFrom? tag i kinds (fs.map (Field.map f)) = strayFrom? tag i kinds fs := by
  induction fs generalizing kinds i with
  | nil => cases kinds <;> rfl
  | cons x fs ih =>
      cases kinds with
      | nil => cases x <;> rfl
      | cons kind kinds =>
          have ih := @ih kinds (i + 1) fun t ht => h t (List.mem_cons_of_mem _ ht)
          cases x with
          | leaf s => rw [List.map_cons, Field.map, strayFrom?, strayFrom?, ih]
          | child t =>
              rw [List.map_cons, Field.map, strayFrom?, strayFrom?, ih, h t List.mem_cons_self]

/-- The expression for a wide literal has no stray slot, as the literal has none. -/
theorem stray?_narrowed {t : Form} (h : t.Fits) : t.narrowed.stray? = t.stray? := by
  induction t using induct with
  | node l tag fs ih =>
      obtain ⟨-, -, hbelow⟩ := obeys_node.mp h
      cases hwide : (node l tag fs).wide? with
      | some v =>
          obtain rfl : tag = .sint := tag_of_wide hwide
          obtain ⟨w, rfl⟩ := Fits.sint h
          have hvalid : (Literal.form v).Valid := (Literal.plain_form v).imp fun _ _ hs => hs.1.2
          have hfits : (Literal.form v).Fits := hvalid.imp fun _ _ => And.left
          rw [narrowed_of_wide hwide, (stray?_eq_none hfits).mpr hvalid.inTable]
          rfl
      | none =>
          rw [narrowed_of_not_wide hwide, stray?, stray?, List.length_map,
            strayFrom?_map fun t ht => ih t ht (hbelow t ht)]

end Tree

namespace Codec

open Foam.Tree

/-! ## Reading up to a stray slot -/

section

variable {α β : Type} {x : GetM α} {f : α → GetM β} {l m : List UInt8} {P : α → Prop}
  {Q : β → Prop} {r r' : Option Stray}

/-- Without a stray slot the reader takes the bytes `l`, whatever stands before and after them, and
gives what has `P`. With one it ends in the error there. -/
def Ends (x : GetM α) (l : List UInt8) (P : α → Prop) : Option Stray → Prop
  | none => Yields x l fun _ => P
  | some s => ∀ before after, ∃ b, x (.mid before (l ++ after)) = (.error s.error, b)

namespace Ends

theorem of_reads {v : α} (h : Reads x l v) (hP : P v) : Ends x l P none :=
  Yields.of_reads h fun _ => hP

theorem bind (h : Ends x l P r) (h' : ∀ v, P v → Ends (f v) m Q r') :
    Ends (x >>= f) (l ++ m) Q (r.or r') := by
  cases r with
  | some s =>
      intro before after
      obtain ⟨b, hb⟩ := h before (m ++ after)
      rw [List.append_assoc]
      exact ⟨b, GetM.bind_error hb⟩
  | none =>
      cases r' with
      | none =>
          have hx : Yields x l fun _ => P := h
          show Yields (x >>= f) (l ++ m) fun _ => Q
          refine hx.bind ?_
          rintro v ⟨-, hv⟩ before after
          obtain ⟨w, hw, hQ⟩ := h' v hv before after
          exact ⟨w, hw, fun _ => hQ⟩
      | some s =>
          intro before after
          obtain ⟨v, hx, hv⟩ := h before (m ++ after)
          obtain ⟨b, hb⟩ := h' v hv (before ++ l) after
          rw [List.append_assoc, GetM.bind_ok hx]
          exact ⟨b, hb⟩

theorem imp {P' : α → Prop} (h : Ends x l P r) (hPP' : ∀ v, P v → P' v) : Ends x l P' r := by
  cases r with
  | some s => exact h
  | none =>
      intro before after
      obtain ⟨v, hx, hv⟩ := h before after
      exact ⟨v, hx, hPP' v hv⟩

theorem map {g : α → β} (h : Ends x l P r) (hPQ : ∀ v, P v → Q (g v)) :
    Ends (x >>= fun v => Pure.pure (g v)) l Q r := by
  have hpure : ∀ v, P v → Ends (Pure.pure (g v)) [] Q none :=
    fun v hv => of_reads (.pure (g v)) (hPQ v hv)
  have hbind := h.bind hpure
  rwa [List.append_nil, Option.or_none] at hbind

/-- Where the cursor is makes no difference. -/
theorem position {f : Nat → GetM β} (h : ∀ pos, Ends (f pos) l Q r) :
    Ends (position >>= f) l Q r := by
  cases r with
  | some s => exact fun before after => h before.length before after
  | none => exact fun before after => h before.length before after

/-- A reader that takes the bytes `l` and goes on as one that reads up to a stray slot. -/
theorem after (h : ∀ before after, ∃ y : GetM α, Ends y m P r ∧
      x (.mid before (l ++ (m ++ after))) = y (.mid (before ++ l) (m ++ after))) :
    Ends x (l ++ m) P r := by
  cases r with
  | some s =>
      intro before after
      obtain ⟨y, hy, hx⟩ := h before after
      obtain ⟨b, hb⟩ := hy (before ++ l) after
      rw [List.append_assoc, hx]
      exact ⟨b, hb⟩
  | none =>
      intro before after
      obtain ⟨y, hy, hx⟩ := h before after
      obtain ⟨v, hv, hP⟩ := hy (before ++ l) after
      rw [List.append_assoc, hx, ← List.append_assoc before]
      exact ⟨v, hv, hP⟩

end Ends

end

variable {kind : FieldKind} {s : Slot} {own : List UInt8} {p : Place} {head : Head}

theorem getOrdinal_ends {α : Type} [Table α] {sort : NameSort} {width : Nat} {tag : Tag} {i : Nat}
    {v : Int64} (h : Word.fitsUnsigned width v.toInt = true) :
    Ends (getOrdinal α sort width tag i) (Word.ofInt width v.toInt) (· = .int v)
      (Stray.ofOrdinal? α sort tag i v) := by
  by_cases hv : (Table.ofOrdinal? v.toInt : Option α).isSome = true
  · rw [Stray.ofOrdinal?_eq_none.mpr hv]
    exact .of_reads (getOrdinal_ofInt h hv) rfl
  · rw [Stray.ofOrdinal?, if_neg hv]
    intro before after
    have hcast := natCast_toNat_of_fitsUnsigned h
    have hlarge : ¬v.toInt.toNat < Table.size α := by
      rw [Bool.not_eq_true, Option.isSome_eq_false_iff, Option.isNone_iff_eq_none,
        Table.ofOrdinal?_eq_none_iff] at hv
      omega
    refine ⟨.mid (before ++ Word.ofInt width v.toInt) after, ?_⟩
    rw [getOrdinal, GetM.bind_ok (getUnsigned_ofInt h before after), if_neg hlarge]
    rfl

/-- A payload is read back unless it is stray. -/
theorem getScalar_ends (hformat : head.format = p.format) (hs : s.fits kind = true)
    (h : PayloadBytes p kind s own) (i : Nat) : Ends (getScalar head p.labels i kind) own
      (fun r => labelsAfterSlot p.labels kind r = labelsAfter p.labels (kind, s))
      (Stray.ofSlot? head.tag i kind s) := by
  by_cases hk : kind = .treeLength
  · subst hk
    obtain ⟨v, rfl⟩ := Slot.int_of_fits rfl hs
    exact .of_reads (getScalar_treeLength head p.labels i h) rfl
  · have hown : p.leaf kind s = pure own := (if_neg hk).mp h
    by_cases htable : s.inTable kind = true
    · rw [Stray.ofSlot?_eq_none.mpr htable]
      exact .of_reads (getScalar_slot i hformat hk ⟨h.ne_child hs, hs, htable⟩ hown)
        (labelsAfterSlot_eq ..)
    · -- only four kinds name a table, and a slot of these is read as an ordinal
      cases s with
      | int v =>
          change p.int kind v.toInt = pure own at hown
          have hlabels : ∀ r, r = Slot.int v →
              labelsAfterSlot p.labels kind r = labelsAfter p.labels (kind, .int v) := by
            rintro _ rfl
            exact labelsAfterSlot_eq ..
          cases kind with
          | typeTag | builtin | protocol | declUsage =>
              obtain ⟨hfits, rfl⟩ := Place.ranged_eq_pure.mp hown
              exact (getOrdinal_ends hfits).imp hlabels
          | _ => exact absurd rfl htable
      | _ => exact absurd (by cases kind <;> rfl) htable

/-- The fields of a node are read up to a stray slot. -/
theorem readFields_ends {child : IntFormat → GetM (Tree Extent)} {kinds : List FieldKind}
    {fs : List (Field Form)} {bytes : List UInt8} (hformat : head.format = p.format)
    (hfits : List.Forall₂ (Field.Obeys fun k s => s.fits k = true) kinds fs)
    (hlabels : 1 ≤ p.labels.width) (h : encodeAll p kinds fs = pure bytes)
    (hchild : ∀ t, .child t ∈ fs → ∀ labels l, 1 ≤ labels.width → t.encode labels = pure l →
      Ends (child labels) l (fun _ => True) t.stray?) (i : Nat) :
    Ends (readFields child head p.labels i kinds) bytes (fun _ => True)
      (strayFrom? head.tag i kinds fs) := by
  induction hfits generalizing p bytes i with
  | nil =>
      obtain rfl := EncodeM.pure_inj h
      exact .of_reads (.pure _) trivial
  | @cons kind f kinds fs hf _ ih =>
      -- what is read leaves the label format that what was written leaves
      have hcons : ∀ {own rest : List UInt8} {r : Option Stray},
          Ends (readField child head p.labels i kind) own
            (fun g => labelsAfterSlot p.labels kind g.blank = labelsAfter p.labels (kind, f.blank))
            r → encodeAll (p.after kind f.blank) kinds fs = pure rest →
          Ends (readFields child head p.labels i (kind :: kinds)) (own ++ rest) (fun _ => True)
            (r.or (strayFrom? head.tag (i + 1) kinds fs)) := by
        intro own rest r hfield hrest
        refine hfield.bind fun g hg => ?_
        rw [hg]
        exact (ih (p := p.after kind f.blank) hformat (width_after hlabels _ _) hrest
          (fun t ht => hchild t (List.mem_cons_of_mem _ ht)) (i + 1)).map fun _ _ => trivial
      cases f with
      | leaf s =>
          obtain ⟨own, rest, hown, hrest, rfl⟩ := encodeAll_leaf hf h
          refine hcons ?_ hrest
          rw [readField, if_neg (hown.ne_child hf)]
          exact (getScalar_ends hformat hf hown i).map fun _ hr => hr
      | child t =>
          obtain ⟨own, rest, hown, hrest, rfl⟩ := encodeAll_child h
          obtain rfl : kind = .child := hf
          refine hcons ?_ hrest
          rw [readField, if_pos rfl]
          exact (hchild t List.mem_cons_self p.labels own hlabels hown).map fun _ _ => rfl

/-- The bytes of a form are read up to the first stray slot. -/
theorem readFrom_ends {t : Form} (ht : t.Fits) {labels : IntFormat} (hlabels : 1 ≤ labels.width)
    {bytes : List UInt8} (h : t.encode labels = pure bytes) {fuel : Nat} (hfuel : t.height ≤ fuel) :
    Ends (readFrom fuel labels) bytes (fun _ => True) t.stray? := by
  induction t using induct generalizing labels bytes fuel with
  | node l tag fs ih =>
      obtain ⟨-, hfits, hbelow⟩ := obeys_node.mp ht
      obtain ⟨own, rest, rfl, -, hrest, hhead⟩ := head_read ht hlabels h
      obtain ⟨d, rfl⟩ : ∃ d, fuel = d + 1 :=
        Nat.exists_eq_add_one_of_ne_zero (Nat.ne_of_gt (Nat.lt_of_lt_of_le (height_pos _) hfuel))
      have hfields : ∀ pos, Ends (readFields (readFrom d)
          ⟨tag, .ofNode (.bare tag (fs.map Field.blank)), fs.length, pos⟩ labels 0
            (tag.layout.kinds fs.length)) rest (fun _ => True)
          (strayFrom? tag 0 (tag.layout.kinds fs.length) fs) := by
        intro pos
        refine readFields_ends (p := .first (.bare tag (fs.map Field.blank)) labels) rfl hfits
          hlabels hrest (fun t ht' labels own hlabels hown => ?_) 0
        have hlt := height_lt l tag ht'
        exact ih t ht' (hbelow t ht') hlabels hown (by omega)
      rw [stray?, ← Option.or_none (o := strayFrom? ..), ← List.append_nil rest]
      refine .after fun before after => ⟨position >>= fun start => readFields (readFrom d)
        ⟨tag, .ofNode (.bare tag (fs.map Field.blank)), fs.length, before.length⟩ labels 0
          (tag.layout.kinds fs.length) >>= fun gs => position >>= fun stop =>
            Pure.pure (.node ⟨start, stop⟩ tag gs), ?_, ?_⟩
      · refine .position fun start => (hfields before.length).bind fun gs _ => ?_
        exact .position fun stop => .of_reads (.pure _) trivial
      · rw [readFrom, List.append_nil]
        exact GetM.bind_ok (hhead before after)

/-- A node has a byte of its own on every level. -/
theorem height_le_encode {t : Form} (ht : t.Fits) {labels : IntFormat} {bytes : List UInt8}
    (h : t.encode labels = pure bytes) : t.height ≤ bytes.length := by
  induction t using induct generalizing labels bytes with
  | node l tag fs ih =>
      obtain ⟨-, hfits, hbelow⟩ := obeys_node.mp ht
      obtain ⟨own, rest, hown, hrest, rfl⟩ := encode_eq_pure h
      obtain ⟨count, rfl, -⟩ := headBytes_eq_pure.mp hown
      have hle : heightAll fs ≤ rest.length := by
        refine heightAll_le fun t ht' => ?_
        obtain ⟨labels', m, hm, hle⟩ := exists_encode_le hfits hrest ht'
        exact Nat.le_trans (ih t ht' (hbelow t ht') hm) hle
      rw [height, List.length_append, List.length_cons]
      omega

/-- The bytes of a tree are read up to the first stray slot. -/
theorem read_ends {t : Form} (ht : t.Fits) {bytes : List UInt8}
    (h : t.encode .word = pure bytes) : Ends read bytes (fun _ => True) t.stray? := by
  have hle := height_le_encode ht h
  rw [← List.nil_append bytes]
  refine .after fun before after => ⟨readFrom (bytes.length + after.length + 1) .word,
    readFrom_ends ht (by decide) h (by omega), ?_⟩
  rw [List.append_nil, List.nil_append, read, GetM.bind_ok (GetM.get_apply _),
    Buffer.remaining_mid, List.length_append]

/-- An encoding is decoded again if every ordinal in the tree is in its table. Otherwise decoding
ends in the error of the first one that is not, and every node is as it was. -/
theorem decode_encode_or_stray {a dst : Arena} {t : Tree NodeId} {bytes : List UInt8}
    (hw : a.WellFormed) (ht : t.In a) (h : encode a t.label = pure bytes) (hdst : dst.WellFormed)
    (hroom : dst.Room bytes.length) :
    (t.form.stray? = none ↔ t.InTable) ∧
    (t.InTable → ∃ (u : Tree NodeId) (d : Arena),
      (decode.run.run (.ofList bytes)).run dst = .ok ((.ok u.label, .mid bytes []), d) ∧
      u.In d ∧ u.form = t.form.recoded) ∧
    ∀ s, t.form.stray? = some s → ∃ (c : Buffer) (d : Arena),
      (decode.run.run (.ofList bytes)).run dst = .ok ((.error s.error, c), d) ∧
      ∀ x, d.get? x = dst.get? x := by
  have hfits : t.form.Fits := t.obeys_form.mpr (ht.fits hw)
  have hbytes : t.form.narrowed.encode .word = pure bytes := Tree.encode_eq ht ▸ h
  refine ⟨(Tree.stray?_eq_none hfits).trans t.payloads_form, fun htable => ?_, fun s hs => ?_⟩
  · have hsize : t.form.recoded.size ≤ bytes.length := by
      rw [Tree.recoded, Tree.size_cleared]
      exact Tree.size_le_encode (ht.valid_narrowed hw htable) hbytes
    obtain ⟨u, d, hrun, hform, hgrows⟩ := decode_encode hw ht htable h hdst
      (Nat.le_trans (Nat.add_le_add_left hsize _) hroom)
    exact ⟨u, d, hrun, hgrows.placed u List.mem_cons_self, hform⟩
  · have hends : Ends read bytes (fun _ => True) (some s) := by
      rw [← hs, ← Tree.stray?_narrowed hfits]
      exact read_ends (Tree.Obeys.narrowed (fun _ _ hs => hs.1.fits) hfits) hbytes
    obtain ⟨c, hread⟩ := hends [] []
    rw [List.append_nil] at hread
    have hread : read (.ofList bytes) = (.error s.error, c) := hread
    have hm := decode_mirrors hdst (roomFor_read (b := .ofList bytes) hroom)
    rw [hread] at hm
    obtain ⟨d, hrun, hrestores⟩ := hm
    exact ⟨c, d, hrun, hrestores.get?⟩

/-- A type and an operation that are past their tables, one behind the other. -/
theorem decode_encode_or_stray_seq :
    let a : Arena := .ofRows [some (.bare .nop []), some (.bare .cast [.int 200, .code ⟨0⟩]),
      some (.bare .bval [.int 999]), some (.bare .seq [.code ⟨1⟩, .code ⟨2⟩])] []
    let t : Tree NodeId := .node ⟨3⟩ .seq
      [.child (.node ⟨1⟩ .cast [.leaf (.int 200), .child (.node ⟨0⟩ .nop [])]),
        .child (.node ⟨2⟩ .bval [.leaf (.int 999)])]
    let bytes : List UInt8 := [243, 26, 200, 15, 16, 3, 231]
    a.WellFormed ∧ t.In a ∧ encode a t.label = pure bytes ∧ Arena.empty.Room bytes.length ∧
      t.form.stray? = some ⟨.cast, 0, .type, 200⟩ ∧ ∃ (c : Buffer) (d : Arena),
      (decode.run.run (.ofList bytes)).run .empty =
        .ok ((.error (.badOrdinal .cast 0 .type 200), c), d) ∧
      ∀ x, d.get? x = Arena.empty.get? x := by
  intro a t bytes
  have hw : a.WellFormed := by decide
  have ht : t.In a := by decide
  have h : encode a t.label = pure bytes := by rfl
  have hroom : Arena.empty.Room bytes.length := by decide
  have hs : t.form.stray? = some ⟨.cast, 0, .type, 200⟩ := by rfl
  obtain ⟨-, -, hstray⟩ := decode_encode_or_stray hw ht h Arena.empty_wellFormed hroom
  exact ⟨hw, ht, h, hroom, hs, hstray _ hs⟩

/-- So not every encoding is decoded again: a cast to a type that there is none of has one. -/
theorem not_decode_encode : ¬ ∀ (a : Arena) (t : Tree NodeId) (bytes : List UInt8), a.WellFormed →
    t.In a → encode a t.label = pure bytes → ∃ (id : NodeId) (c : Buffer) (d : Arena),
      (decode.run.run (.ofList bytes)).run .empty = .ok ((.ok id, c), d) := by
  intro h
  let a : Arena := .ofRows [some (.bare .nop []), some (.bare .cast [.int 200, .code ⟨0⟩])] []
  let t : Tree NodeId := .node ⟨1⟩ .cast [.leaf (.int 200), .child (.node ⟨0⟩ .nop [])]
  obtain ⟨id, c, d, hrun⟩ := h a t [26, 200, 15] (by decide) (by decide) (by rfl)
  have hfails : ((decode.run.run (.ofList [26, 200, 15])).run .empty).toOption.map
      (fun p => p.1.1.isOk) = some false := by decide +kernel
  rw [hrun] at hfails
  cases hfails

end Codec

end Foam
