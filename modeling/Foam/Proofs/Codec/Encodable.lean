import Foam.Proofs.Codec.Skip
import Foam.Proofs.Codec.Writable

/-!
# Which trees have an encoding

A tree has an encoding if every number is in the range that its kind has in bytes, no child is absent
and nothing is kept for the host alone. `Tree.encodable` says so node by node, without formats: the
format that is selected for a node holds whatever four bytes can hold, so it never stands in the way.
A wide literal is no obstacle either, since its expression is made of narrow ones.

Encoding a tree is not refused. It succeeds exactly on these trees, and writing to a buffer puts the
bytes over those at the cursor or changes nothing.
-/

namespace Foam

/-! ## Ranges -/

/-- The least and the greatest number that a slot of the kind has bytes for, if these are bounded;
`count` is the number of labels in the procedure around. -/
def FieldKind.bounds? (count : Option Int) : FieldKind → Option (Int × Int)
  | .typeTag | .protocol | .declUsage | .byte => some (0, 255)
  | .builtin => some (0, 65535)
  | .halfWord => some (-32768, 32767)
  | .word | .labelFormat | .index => some (-2147483648, 2147483647)
  | .label =>
    if count.any fun n => 0 ≤ n && n ≤ 255 then some (0, 255) else some (-2147483648, 2147483647)
  | _ => none

/-- The payload has bytes in a slot of the kind. An absent child and a value of the host have none. -/
def Slot.encodable (count : Option Int) (kind : FieldKind) : Slot → Bool
  | .int v => (kind.bounds? count).all fun r => r.1 ≤ v.toInt && v.toInt ≤ r.2
  | .code _ | .arb _ => false
  | _ => true

/-- The number of bytes of a text, or of places of a bignum. -/
def Slot.length : Slot → Nat
  | .str s => s.utf8ByteSize
  | .bint b => b.places.length
  | _ => 0

namespace Tree

variable {α : Type}

/-- The number of labels under a node: a procedure has its own. -/
def labelCount (count : Option Int) : Tree α → Option Int
  | node _ .prog (_ :: .leaf (.int n) :: _) => some n.toInt
  | _ => count

mutual
/-- Every payload of the tree has bytes, the children under the number of labels of the procedure
around them. A literal has bytes whatever its number is. -/
def encodable (count : Option Int) : Tree α → Bool
  | node l tag fs =>
    tag == .sint || encodableAll (labelCount count (node l tag fs)) (tag.layout.kinds fs.length) fs
def encodableAll (count : Option Int) : List FieldKind → List (Field (Tree α)) → Bool
  | kind :: kinds, .leaf s :: fs => s.encodable count kind && encodableAll count kinds fs
  | _ :: kinds, .child t :: fs => t.encodable count && encodableAll count kinds fs
  | _, _ => true
end

/-- The root has less than `2 ^ 31` slots, and no text or bignum of that length in one. -/
abbrev ShortRoot (t : Tree α) : Prop :=
  t.fields.length < 2 ^ 31 ∧ ∀ f ∈ t.fields, f.blank.length < 2 ^ 31

/-- The slots of every node can be counted in four bytes, and so can what each of them holds. -/
abbrev Short (t : Tree α) : Prop := t.Every ShortRoot

end Tree

namespace Codec

/-! ## Computations that succeed on a condition -/

/-- The computation is not refused. It succeeds if `P`, and fails otherwise. -/
def SucceedsIff {α : Type} (x : EncodeM α) (P : Prop) : Prop :=
  (P ∧ ∃ v, x = pure v) ∨ ¬P ∧ ∃ e, x = throw e

namespace SucceedsIff

variable {α β : Type} {x : EncodeM α} {f : α → EncodeM β} {P Q : Prop}

theorem of_eq {v : α} (h : x = pure v) (hP : P) : SucceedsIff x P := .inl ⟨hP, v, h⟩

theorem of_throw (e : EncodeError) (hP : ¬P) : SucceedsIff (throw e : EncodeM α) P :=
  .inr ⟨hP, e, rfl⟩

theorem congr (h : SucceedsIff x P) (hPQ : P ↔ Q) : SucceedsIff x Q := by
  rwa [SucceedsIff, ← hPQ]

theorem bind (hx : SucceedsIff x P) (hf : ∀ v, SucceedsIff (f v) Q) :
    SucceedsIff (x >>= f) (P ∧ Q) := by
  rcases hx with ⟨hP, v, rfl⟩ | ⟨hP, e, rfl⟩
  · exact (hf v).congr (by simp [hP])
  · exact .inr ⟨fun h => hP h.1, e, rfl⟩

theorem map (hx : SucceedsIff x P) (g : α → β) : SucceedsIff (do return g (← x)) P :=
  (hx.bind fun _ => of_eq (P := True) rfl trivial).congr (and_iff_left trivial)

theorem exists_iff (h : SucceedsIff x P) : (∃ v, x = pure v) ↔ P := by
  rcases h with ⟨hP, v, rfl⟩ | ⟨hP, e, rfl⟩
  · exact ⟨fun _ => hP, fun _ => ⟨v, rfl⟩⟩
  · refine ⟨?_, fun h => absurd h hP⟩
    rintro ⟨v, h⟩
    exact absurd h EncodeM.throw_ne_pure

end SucceedsIff

/-! ## Payloads -/

/-- The format of labels among `count` of them. Outside any procedure they are words. -/
def IntFormat.ofCount : Option Int → IntFormat
  | none => word
  | some n => ofLabelCount n

theorem encodable_int {count : Option Int} {kind : FieldKind} {lo hi : Int} {v : Int64}
    (h : kind.bounds? count = some (lo, hi)) :
    (Slot.int v).encodable count kind = true ↔ lo ≤ v.toInt ∧ v.toInt ≤ hi := by
  simp [Slot.encodable, h]

theorem ofCount_holds_iff {count : Option Int} {v : Int64} :
    (IntFormat.ofCount count).holds v.toInt = true ↔ (Slot.int v).encodable count .label = true := by
  have hword : IntFormat.word.holds v.toInt = true ↔
      -2147483648 ≤ v.toInt ∧ v.toInt ≤ 2147483647 := by
    rw [IntFormat.holds, Word.fitsSigned_iff]
    omega
  have hbyte : ∀ n : Int, IntFormat.byte.holds n = true ↔ 0 ≤ n ∧ n ≤ 255 := by
    intro n
    rw [IntFormat.holds, Word.fitsUnsigned_iff]
    omega
  cases count with
  | none => rw [encodable_int rfl, IntFormat.ofCount, hword]
  | some n =>
      rw [IntFormat.ofCount, IntFormat.ofLabelCount]
      by_cases hn : 0 ≤ n ∧ n ≤ 255
      · have hbounds : FieldKind.label.bounds? (some n) = some (0, 255) := by
          simp [FieldKind.bounds?, hn]
        rw [if_pos ((hbyte n).mpr hn), hbyte, encodable_int hbounds]
      · have hbounds : FieldKind.label.bounds? (some n) = some (-2147483648, 2147483647) := by
          simp [FieldKind.bounds?, hn]
        rw [if_neg (mt (hbyte n).mp hn), hword, encodable_int hbounds]

/-- What a place has to tell of its formats for a payload: the format of labels is that for `count`
of them, and the format of the node holds the integer if four bytes do. -/
structure Suits (count : Option Int) (p : Place) (kind : FieldKind) (s : Slot) : Prop where
  labels : kind = .label → p.labels = .ofCount count
  format : ∀ v, compressible? (kind, s) = some v →
    (p.format.holds v = true ↔ Word.fitsSigned 4 v = true)

variable {count : Option Int} {p : Place} {kind : FieldKind} {s : Slot}

/-- A payload that is stored in neither format asks nothing of them. -/
theorem Suits.of_fixed (hkind : kind ≠ .label) (h : compressible? (kind, s) = none) :
    Suits count p kind s where
  labels hlabel := absurd hlabel hkind
  format v hv := by
    rw [h] at hv
    cases hv

theorem ranged_succeedsIff {v : Int} {fits : Bool} {bytes : List UInt8} :
    SucceedsIff (p.ranged kind v fits bytes) (fits = true) := by
  cases fits with
  | false => exact .of_throw _ (by decide)
  | true => exact .of_eq rfl rfl

theorem int_succeedsIff {v : Int64} (hkind : kind.isIntegral = true) (hk : kind ≠ .treeLength)
    (h : Suits count p kind (.int v)) :
    SucceedsIff (p.int kind v.toInt) ((Slot.int v).encodable count kind = true) := by
  cases kind with
  | typeTag | protocol | declUsage | byte | builtin =>
      refine ranged_succeedsIff.congr ?_
      rw [encodable_int rfl, Word.fitsUnsigned_iff]
      omega
  | halfWord | word | labelFormat =>
      refine ranged_succeedsIff.congr ?_
      rw [encodable_int rfl, Word.fitsSigned_iff]
      omega
  | label =>
      refine ranged_succeedsIff.congr ?_
      rw [h.labels rfl, ofCount_holds_iff]
  | index =>
      refine ranged_succeedsIff.congr ?_
      rw [encodable_int rfl, h.format _ rfl, Word.fitsSigned_iff]
      omega
  | treeLength => exact absurd rfl hk
  | _ => cases hkind

/-- A payload that fits its kind and is short has bytes if it is encodable. -/
theorem leaf_succeedsIff (hfits : s.fits kind = true) (hk : kind ≠ .treeLength)
    (hshort : s.length < 2 ^ 31) (h : Suits count p kind s) :
    SucceedsIff (p.leaf kind s) (s.encodable count kind = true) := by
  have hword : ∀ n : Nat, n < 2 ^ 31 → Word.fitsSigned 4 n = true := by
    intro n hn
    rw [Word.fitsSigned_iff]
    omega
  cases s with
  | int v => exact int_succeedsIff hfits hk h
  | str t =>
      obtain rfl : kind = .str := by simpa [Slot.fits] using hfits
      have hholds := (h.format _ rfl).mpr (hword _ hshort)
      exact (ranged_succeedsIff.map _).congr (iff_of_true hholds rfl)
  | bint b =>
      obtain rfl : kind = .bint := by simpa [Slot.fits] using hfits
      have hholds := (h.format _ rfl).mpr (hword _ hshort)
      exact (ranged_succeedsIff.map _).congr (iff_of_true hholds rfl)
  | sflo b => exact .of_eq rfl rfl
  | dflo b => exact .of_eq rfl rfl
  | code c => exact .of_throw _ Bool.false_ne_true
  | arb v => exact .of_throw _ Bool.false_ne_true

/-- A length is known once what follows has its bytes, whatever number was in its place. -/
theorem joinBytes_succeedsIff {rest : EncodeM (List UInt8)} {Q : Prop} (hfits : s.fits kind = true)
    (hshort : s.length < 2 ^ 31) (h : Suits count p kind s) (hrest : SucceedsIff rest Q) :
    SucceedsIff (joinBytes kind s (p.leaf kind s) rest) (s.encodable count kind = true ∧ Q) := by
  by_cases hk : kind = .treeLength
  · subst hk
    obtain ⟨v, rfl⟩ := Slot.int_of_fits rfl hfits
    exact (hrest.map _).congr (and_iff_right rfl).symm
  · rw [joinBytes_of_ne hk]
    exact (leaf_succeedsIff hfits hk hshort h).bind fun l => hrest.map _

end Codec

/-! ## Fields -/

namespace Tree

open Codec

variable {α : Type} {count : Option Int} {p : Place} {kinds : List FieldKind}
  {fs : List (Field (Tree α))} {g : Tree α → Form}

/-- The fields of a node that is no procedure, from a place on. -/
theorem encodeAll_succeedsIff
    (hfits : List.Forall₂ (Field.Obeys fun k s => s.fits k = true) kinds fs)
    (hshort : ∀ f ∈ fs, f.blank.length < 2 ^ 31) (hkinds : .labelFormat ∉ kinds)
    (hlabels : p.labels = .ofCount count)
    (hformat : ∀ v ∈ stored kinds fs, (p.format.holds v = true ↔ Word.fitsSigned 4 v = true))
    (hchild : ∀ t, .child t ∈ fs →
      SucceedsIff ((g t).encode (.ofCount count)) (t.encodable count = true)) :
    SucceedsIff (encodeAll p kinds (fs.map (Field.map g))) (encodableAll count kinds fs = true) := by
  induction hfits generalizing p with
  | nil => exact .of_eq rfl rfl
  | @cons kind f kinds fs hf _ ih =>
      rw [List.mem_cons, not_or] at hkinds
      have hafter : ∀ s, (p.after kind s).labels = .ofCount count := by
        intro s
        rw [← hlabels]
        show labelsAfter p.labels (kind, s) = p.labels
        cases kind <;> first | rfl | exact absurd rfl hkinds.1
      have ih := fun s => @ih (p.after kind s) (fun r hr => hshort r (List.mem_cons_of_mem _ hr))
        hkinds.2 (hafter s)
      cases f with
      | leaf s =>
          have hrest := ih s (fun v hv => hformat v (mem_stored_leaf.mpr (.inr hv)))
            fun t ht => hchild t (List.mem_cons_of_mem _ ht)
          have hsuits : Suits count p kind s :=
            ⟨fun _ => hlabels, fun v hv => hformat v (mem_stored_leaf.mpr (.inl hv))⟩
          rw [List.map_cons, Field.map, encodeAll, encodableAll, Bool.and_eq_true]
          exact joinBytes_succeedsIff hf (hshort (.leaf s) List.mem_cons_self) hsuits hrest
      | child t =>
          obtain rfl : kind = .child := hf
          have hrest := ih (.code .null) hformat fun t ht => hchild t (List.mem_cons_of_mem _ ht)
          rw [List.map_cons, Field.map, encodeAll, encodableAll, Bool.and_eq_true, hlabels]
          exact (hchild t List.mem_cons_self).bind fun _ => hrest.map _

theorem labelCount_of_ne {l : α} {tag : Tag} (h : tag ≠ .prog) :
    labelCount count (node l tag fs) = count := by
  unfold labelCount
  split
  · next heq =>
      injection heq with _ htag _
      exact absurd htag h
  · rfl

/-- The kinds of the slots of a procedure: what is known of the labels comes first. -/
theorem kinds_prog {n : Nat} (h : Tag.prog.layout.accepts n = true) :
    ∃ ks, Tag.prog.layout.kinds n = .treeLength :: .labelFormat :: ks ∧ .labelFormat ∉ ks := by
  have hle : Tag.prog.layout.minSlots ≤ n := of_decide_eq_true h
  obtain ⟨m, rfl⟩ := Nat.exists_eq_add_of_le hle
  refine ⟨Tag.prog.layout.fixed.drop 2 ++ List.replicate m .child, Layout.kinds_of_tail rfl m, ?_⟩
  rw [List.mem_append, not_or]
  refine ⟨by decide, fun hmem => ?_⟩
  cases List.eq_of_mem_replicate hmem

theorem prog_succeedsIff
    (hfits : List.Forall₂ (Field.Obeys fun k s => s.fits k = true)
      (.treeLength :: .labelFormat :: kinds) fs)
    (hshort : ∀ f ∈ fs, f.blank.length < 2 ^ 31) (hkinds : .labelFormat ∉ kinds) {l : α}
    (hformat : ∀ v ∈ stored (.treeLength :: .labelFormat :: kinds) fs,
      (p.format.holds v = true ↔ Word.fitsSigned 4 v = true))
    (hchild : ∀ t, .child t ∈ fs → SucceedsIff
      ((g t).encode (.ofCount (labelCount count (node l .prog fs))))
      (t.encodable (labelCount count (node l .prog fs)) = true)) :
    SucceedsIff (encodeAll p (.treeLength :: .labelFormat :: kinds) (fs.map (Field.map g)))
      (encodableAll (labelCount count (node l .prog fs)) (.treeLength :: .labelFormat :: kinds) fs =
        true) := by
  obtain ⟨f, _, hf, hrest, rfl⟩ := List.forall₂_cons_left_iff.mp hfits
  obtain ⟨f', gs, hf', htail, rfl⟩ := List.forall₂_cons_left_iff.mp hrest
  cases f with
  | child t => cases hf
  | leaf length =>
      cases f' with
      | child t => cases hf'
      | leaf s =>
          obtain ⟨n, rfl⟩ := Slot.int_of_fits rfl hf'
          obtain ⟨v, rfl⟩ := Slot.int_of_fits rfl hf
          have hcount : labelCount count (node l .prog (.leaf (.int v) :: .leaf (.int n) :: gs)) =
              some n.toInt := rfl
          rw [hcount] at hchild ⊢
          have hfields : SucceedsIff (encodeAll ((p.after .treeLength (.int v)).after .labelFormat
              (.int n)) kinds (gs.map (Field.map g))) (encodableAll (some n.toInt) kinds gs = true) :=
            encodeAll_succeedsIff htail (fun s hs => hshort s (by simp [hs])) hkinds rfl hformat
              fun t ht => hchild t (by simp [ht])
          rw [encodableAll, encodableAll, Bool.and_eq_true, Bool.and_eq_true, List.map_cons,
            List.map_cons, Field.map, Field.map, encodeAll, encodeAll]
          -- neither a length nor a number of labels is stored in a format
          exact joinBytes_succeedsIff hf (Nat.two_pow_pos 31) (.of_fixed (by decide) rfl)
            (joinBytes_succeedsIff hf' (Nat.two_pow_pos 31) (.of_fixed (by decide) rfl) hfields)

/-- The fields of a node. -/
theorem fields_succeedsIff {l : α} {tag : Tag} (haccepts : tag.layout.accepts fs.length = true)
    (hfits : List.Forall₂ (Field.Obeys fun k s => s.fits k = true) (tag.layout.kinds fs.length) fs)
    (hshort : ∀ f ∈ fs, f.blank.length < 2 ^ 31) (hlabels : p.labels = .ofCount count)
    (hformat : ∀ v ∈ stored (tag.layout.kinds fs.length) fs,
      (p.format.holds v = true ↔ Word.fitsSigned 4 v = true))
    (hchild : ∀ t, .child t ∈ fs → SucceedsIff
      ((g t).encode (.ofCount (labelCount count (node l tag fs))))
      (t.encodable (labelCount count (node l tag fs)) = true)) :
    SucceedsIff (encodeAll p (tag.layout.kinds fs.length) (fs.map (Field.map g)))
      (encodableAll (labelCount count (node l tag fs)) (tag.layout.kinds fs.length) fs = true) := by
  by_cases htag : tag = .prog
  · subst htag
    obtain ⟨ks, hks, hnot⟩ := kinds_prog haccepts
    rw [hks] at hfits hformat ⊢
    exact prog_succeedsIff hfits hshort hnot hformat hchild
  · rw [labelCount_of_ne htag] at hchild ⊢
    exact encodeAll_succeedsIff hfits hshort (Tag.labelFormat_notMem htag _) hlabels hformat hchild

/-- A node has bytes if its fields do: its format holds the slot count of a short one. -/
theorem node_succeedsIff {l : α} {tag : Tag} (ht : (node l tag fs).Fits)
    (hshort : (node l tag fs).ShortRoot)
    (hchild : ∀ t, .child t ∈ fs → SucceedsIff
      ((g t).encode (.ofCount (labelCount count (node l tag fs))))
      (t.encodable (labelCount count (node l tag fs)) = true)) :
    SucceedsIff ((node () tag (fs.map (Field.map g))).encode (.ofCount count))
      (encodableAll (labelCount count (node l tag fs)) (tag.layout.kinds fs.length) fs = true) := by
  obtain ⟨haccepts, hfits, -⟩ := obeys_node.mp ht
  have hblank : (fs.map (Field.map g)).map Field.blank = fs.map Field.blank := by
    rw [List.map_map, Field.blank_comp_map]
  have hholds : ∀ v ∈ compressibles (.bare tag (fs.map Field.blank)),
      ((IntFormat.ofNode (.bare tag (fs.map Field.blank))).holds v = true ↔
        Word.fitsSigned 4 v = true) := fun v hv => IntFormat.ofNode_holds_iff hv
  obtain ⟨head, hhead⟩ := headBytes_of_holds (n := .bare tag (fs.map Field.blank)) fun hv => by
    have hlen : (Node.bare tag (fs.map Field.blank)).slots.length = fs.length := List.length_map ..
    have hlt : fs.length < 2 ^ 31 := hshort.1
    rw [hlen, hholds _ (mem_compressibles_bare.mpr (.inl ⟨hv, rfl⟩)), Word.fitsSigned_iff]
    omega
  rw [encode_node, hblank, hhead, List.length_map]
  exact (fields_succeedsIff haccepts hfits hshort.2 rfl
    (fun v hv => hholds v (mem_compressibles_bare.mpr (.inr hv))) hchild).map _

/-! ## Literals -/

/-- The same for a form whose children are as they are encoded. -/
theorem form_succeedsIff {l : Unit} {tag : Tag} {fs : List (Field Form)} (ht : (node l tag fs).Fits)
    (hshort : (node l tag fs).ShortRoot)
    (hchild : ∀ t, .child t ∈ fs → SucceedsIff
      (t.encode (.ofCount (labelCount count (node l tag fs))))
      (t.encodable (labelCount count (node l tag fs)) = true)) :
    SucceedsIff ((node l tag fs).encode (.ofCount count))
      (encodableAll (labelCount count (node l tag fs)) (tag.layout.kinds fs.length) fs = true) := by
  have hself : fs.map (Field.map id) = fs := by
    refine (List.map_congr_left fun f _ => ?_).trans (List.map_id fs)
    cases f <;> rfl
  have hnode := node_succeedsIff (g := id) ht hshort hchild
  rwa [hself] at hnode

theorem Plain.fits {t : Tree α} (h : t.Plain) : t.Fits := h.imp fun _ _ hs => hs.1.fits

theorem sint_succeeds {v : Int64} (hv : Literal.isNarrow v = true) :
    ∃ bytes, (sint v).encode (.ofCount count) = pure bytes := by
  have hshort : (sint v).ShortRoot := by
    refine ⟨show 1 < 2 ^ 31 by omega, ?_⟩
    simp [sint, fields, Field.blank, Slot.length]
  have hchild : ∀ t, .child t ∈ (sint v).fields → SucceedsIff (t.encode (.ofCount count))
      (t.encodable count = true) := by
    simp [sint, fields]
  refine (form_succeedsIff (plain_sint v).fits hshort hchild).exists_iff.mpr ?_
  rw [Literal.isNarrow_iff] at hv
  change (encodableAll count [.word] (α := Unit) [.leaf (.int v)]) = true
  rw [encodableAll, Bool.and_eq_true, encodable_int rfl]
  exact ⟨by omega, rfl⟩

theorem length_params_lt (op : Builtin) : op.params.length < 10 := by
  have hall : ∀ op ∈ Builtin.all, op.params.length < 10 := by decide +kernel
  exact hall op (List.mem_of_getElem? (Builtin.all_ordinal op))

theorem encodable_row (op : Builtin) : (Instr.row op).encodable count .builtin = true := by
  have hsize : Table.size Builtin < 65536 := by decide +kernel
  have hlt : Table.ordinal op < Table.size Builtin :=
    (List.getElem?_eq_some_iff.mp (Table.rows_ordinal op)).1
  rw [Instr.row, encodable_int rfl, Int64.toInt_ofNat_of_lt (by omega)]
  omega

theorem encodableAll_child (ts : List (Tree α)) :
    encodableAll count (List.replicate ts.length .child) (ts.map .child) = true ↔
      ∀ t ∈ ts, t.encodable count = true := by
  induction ts with
  | nil => simp [encodableAll]
  | cons t ts ih => simp [List.replicate_succ, encodableAll, ih]

theorem bcall_succeeds {op : Builtin} {args : List Form} (hop : Literal.IsIntOp op args.length)
    (hplain : ∀ t ∈ args, t.Plain)
    (h : ∀ t ∈ args, t.encodable count = true ∧ ∃ bytes, t.encode (.ofCount count) = pure bytes) :
    (bcall op args).encodable count = true ∧
      ∃ bytes, (bcall op args).encode (.ofCount count) = pure bytes := by
  have hargs : args.length < 10 := by
    have hlt := length_params_lt op
    rwa [hop.1, List.length_replicate] at hlt
  have hshort : (bcall op args).ShortRoot := by
    refine ⟨?_, by simp [bcall, fields, Field.blank, Slot.length, Instr.row]⟩
    simp only [bcall, fields, List.length_cons, List.length_map]
    omega
  have hchild : ∀ t, .child t ∈ (bcall op args).fields → SucceedsIff (t.encode (.ofCount count))
      (t.encodable count = true) := by
    intro t ht
    obtain ⟨hencodable, bytes, hbytes⟩ := h t (by simpa [bcall, fields] using ht)
    exact .of_eq hbytes hencodable
  have hall : encodableAll count (Tag.bcall.layout.kinds (args.length + 1))
      (.leaf (Instr.row op) :: args.map .child) = true := by
    rw [kinds_bcall, encodableAll, Bool.and_eq_true, encodableAll_child]
    exact ⟨encodable_row op, fun t ht => (h t ht).1⟩
  have hlength : (Field.leaf (Instr.row op) :: args.map Field.child).length = args.length + 1 := by
    simp
  rw [← hlength] at hall
  refine ⟨?_, (form_succeedsIff (plain_bcall hplain).fits hshort hchild).exists_iff.mpr hall⟩
  rw [bcall, encodable]
  exact hall

/-- The expression for a wide literal has bytes. -/
theorem literal_succeeds (v : Int64) : ∃ bytes, (Literal.form v).encode (.ofCount count) =
    pure bytes := by
  suffices h : (Literal.form v).Plain ∧ (Literal.form v).encodable count = true ∧
      ∃ bytes, (Literal.form v).encode (.ofCount count) = pure bytes from h.2.2
  refine Literal.form_induct (P := fun t => t.Plain ∧ t.encodable count = true ∧
    ∃ bytes, t.encode (.ofCount count) = pure bytes) ?_ ?_ v
  · exact fun v hv => ⟨plain_sint v, rfl, sint_succeeds hv⟩
  · intro op args hop h
    have hplain : ∀ t ∈ args, t.Plain := fun t ht => (h t ht).1
    exact ⟨plain_bcall hplain, bcall_succeeds hop hplain fun t ht => (h t ht).2⟩

/-! ## Trees -/

/-- Encoding what a tree is narrowed to succeeds if the tree is encodable. -/
theorem encode_succeedsIff {t : Tree α} (ht : t.Fits) (hshort : t.Short) (count : Option Int) :
    SucceedsIff (t.form.narrowed.encode (.ofCount count)) (t.encodable count = true) := by
  induction t generalizing count with
  | node l tag fs ih =>
      by_cases htag : tag = .sint
      · subst htag
        obtain ⟨v, rfl⟩ := Fits.sint ht
        have hroot : (node l .sint [.leaf (.int v)]).form = sint v := by simp [Field.map, sint]
        obtain ⟨bytes, hbytes⟩ : ∃ bytes, (sint v).narrowed.encode (.ofCount count) = pure bytes := by
          cases hw : (sint v).wide? with
          | some w =>
              rw [narrowed_of_wide hw]
              exact literal_succeeds w
          | none =>
              rw [sint, narrowed_of_not_wide hw]
              refine sint_succeeds ?_
              by_contra hv
              rw [sint, wide?, if_neg hv] at hw
              cases hw
        rw [hroot]
        exact .of_eq hbytes rfl
      · obtain ⟨-, -, hbelow⟩ := obeys_node.mp ht
        obtain ⟨hhere, hshortBelow⟩ := every_node.mp hshort
        have hform : (node l tag fs).form.narrowed =
            node () tag (fs.map (Field.map fun t => t.form.narrowed)) := by
          rw [form_node, narrowed_of_not_wide (wide?_of_ne_sint (t := node () tag _) htag),
            List.map_map]
          refine congrArg (node () tag) (List.map_congr_left fun f _ => ?_)
          cases f <;> rfl
        rw [hform, encodable, beq_eq_false_iff_ne.mpr htag, Bool.false_or]
        exact node_succeedsIff (g := fun t => t.form.narrowed) ht hhere
          fun t hchild => ih t hchild (hbelow t hchild) (hshortBelow t hchild) _

end Tree

/-! ## Writing -/

namespace Codec

theorem PutM.bind_ok {α β : Type} {x : PutM α} {f : α → PutM β} {b c : Buffer} {v : α}
    (h : x b = .ok (.ok v, c)) : (x >>= f) b = f v c := by
  show (x b >>= fun p => _) = _
  rw [h]
  rfl

theorem PutM.bind_error {α β : Type} {x : PutM α} {f : α → PutM β} {b c : Buffer} {e : EncodeError}
    (h : x b = .ok (.error e, c)) : (x >>= f) b = .ok (.error e, c) := by
  show (x b >>= fun p => _) = _
  rw [h]
  rfl

theorem encoding_of_eq {α : Type} {x : EncodeM α} {r : Except EncodeError α} (h : x = .ok r)
    (b : Buffer) : encoding x b = .ok (r, b) := by
  rw [h]
  rfl

variable {a : Arena} {id : NodeId}

theorem writeTree_apply (b : Buffer) : (writeTree a id).run.run b =
    ((do
      let after ← encoding (b.putTree a id)
      set after
      return after.pos - b.pos) : PutM Nat) b := rfl

/-- Writing puts the bytes over those at the cursor, and beyond the end if there are more. -/
theorem writeTree_of_pure {bytes : List UInt8} (h : encode a id = pure bytes) (b : Buffer) :
    ∃ c, (writeTree a id).run.run b = .ok (.ok bytes.length, c) ∧ c.pos = b.pos + bytes.length ∧
      c.toList = b.toList.take b.pos ++ bytes ++ b.toList.drop (b.pos + bytes.length) := by
  have hput : b.put bytes = .mid (b.toList.take b.pos ++ bytes)
      (b.toList.drop (b.pos + bytes.length)) := by
    conv_lhs => rw [b.eq_mid, Buffer.put_mid, List.drop_drop]
  have hpos : (b.put bytes).pos = b.pos + bytes.length := by
    have hle : b.pos ≤ b.toList.length := b.pos_le
    rw [hput, Buffer.pos_mid, List.length_append, List.length_take, Nat.min_eq_left hle]
  refine ⟨b.put bytes, ?_, hpos, ?_⟩
  · have htree : b.putTree a id = pure (b.put bytes) := EncodeM.bind_of_eq h
    rw [writeTree_apply, PutM.bind_ok (encoding_of_eq htree b)]
    show Except.ok (Except.ok ((b.put bytes).pos - b.pos), b.put bytes) = _
    rw [hpos, Nat.add_sub_cancel_left]
  · rw [hput]
    simp [Buffer.mid, Buffer.toList]

theorem writeTree_of_throw {e : EncodeError} (h : encode a id = throw e) (b : Buffer) :
    (writeTree a id).run.run b = .ok (.error e, b) := by
  have htree : b.putTree a id = throw e := by
    rw [Buffer.putTree, h]
    rfl
  rw [writeTree_apply, PutM.bind_error (encoding_of_eq htree b)]

theorem encode_null (a : Arena) : encode a .null = throw (.nullChild .nil 0) := by
  obtain ⟨d, hd⟩ : ∃ d, 2 * a.depthBound = d + 1 := ⟨2 * a.capacity + 1, by
    rw [Arena.depthBound]
    omega⟩
  rw [encode, hd]
  rfl

/-- Writing a tree is never refused. It succeeds if there is a tree and all that is in it can be
encoded. Then its bytes stand from the old cursor to the new one, as many as are told, and those before
and after are what they were. Otherwise nothing has changed. -/
theorem writeTree_succeeds_iff_encodable (hw : a.WellFormed) {t : Option (Tree NodeId)}
    (ht : ∀ u ∈ t, u.In a ∧ u.Short) (b : Buffer) : ∃ r c,
      (writeTree a (t.elim .null Tree.label)).run.run b = .ok (r, c) ∧
      (r.isOk = true ↔ ∃ u ∈ t, u.encodable none = true) ∧
      (∀ n, r = .ok n → ∃ bytes, encode a (t.elim .null Tree.label) = pure bytes ∧ bytes.length = n ∧
        c.pos = b.pos + n ∧
        c.toList = b.toList.take b.pos ++ bytes ++ b.toList.drop (b.pos + n)) ∧
      (∀ e, r = .error e → c = b) := by
  have hsucceeds : SucceedsIff (encode a (t.elim .null Tree.label))
      (∃ u ∈ t, u.encodable none = true) := by
    cases t with
    | none =>
        refine .inr ⟨?_, _, encode_null a⟩
        rintro ⟨u, hu, -⟩
        cases hu
    | some u =>
        obtain ⟨hu, hshort⟩ := ht u rfl
        show SucceedsIff (encode a u.label) _
        rw [Tree.encode_eq hu]
        exact (Tree.encode_succeedsIff (hu.fits hw) hshort none).congr (by simp)
  rcases hsucceeds with ⟨hall, bytes, hbytes⟩ | ⟨hnot, e, he⟩
  · obtain ⟨c, hrun, hpos, hlist⟩ := writeTree_of_pure hbytes b
    refine ⟨_, c, hrun, iff_of_true rfl hall, ?_, ?_⟩
    · rintro _ ⟨⟩
      exact ⟨bytes, hbytes, rfl, hpos, hlist⟩
    · rintro _ ⟨⟩
  · refine ⟨_, b, writeTree_of_throw he b, iff_of_false Bool.false_ne_true hnot, ?_, ?_⟩
    · rintro _ ⟨⟩
    · exact fun _ _ => rfl

/-- A procedure with many labels and in it one with few, and a wide literal, written over the last two
of three bytes and beyond. -/
theorem writeTree_succeeds_nested :
    let a : Arena := .ofRows [some (.bare .label [.int 256]), some (.bare .label [.int 7]),
      some (.bare .prog [.int 0, .int 2, .int 0, .int 0, .int 0, .int 0, .int 0, .int 0, .code ⟨1⟩]),
      some (.bare .sint [.int 1099511627776]),
      some (.bare .prog [.int 0, .int 300, .int 0, .int 0, .int 0, .int 0, .int 0, .int 0, .code ⟨0⟩,
        .code ⟨2⟩, .code ⟨3⟩])] []
    let header : Int64 → List (Field (Tree NodeId)) := fun n => [.leaf (.int 0), .leaf (.int n),
      .leaf (.int 0), .leaf (.int 0), .leaf (.int 0), .leaf (.int 0), .leaf (.int 0), .leaf (.int 0)]
    let inner : Tree NodeId :=
      .node ⟨2⟩ .prog (header 2 ++ [.child (.node ⟨1⟩ .label [.leaf (.int 7)])])
    let t : Tree NodeId := .node ⟨4⟩ .prog (header 300 ++
      [.child (.node ⟨0⟩ .label [.leaf (.int 256)]), .child inner,
        .child (.node ⟨3⟩ .sint [.leaf (.int 1099511627776)])])
    let b : Buffer := .mid [1] [2, 3]
    a.WellFormed ∧ (∀ u ∈ some t, u.In a ∧ u.Short) ∧ t.encodable none = true ∧
      inner.encodable none = true ∧ ∃ n c, (writeTree a ⟨4⟩).run.run b = .ok (.ok n, c) ∧
        ∃ bytes, encode a ⟨4⟩ = pure bytes ∧ bytes.length = n ∧ c.pos = b.pos + n ∧
          c.toList = b.toList.take b.pos ++ bytes ++ b.toList.drop (b.pos + n) := by
  intro a header inner t b
  have hw : a.WellFormed := by decide
  have ht : ∀ u ∈ some t, u.In a ∧ u.Short := by decide
  have hencodable : t.encodable none = true := by decide
  obtain ⟨r, c, hrun, hok, hbytes, -⟩ := writeTree_succeeds_iff_encodable hw ht b
  cases r with
  | error e => exact absurd (hok.mpr ⟨t, rfl, hencodable⟩) Bool.false_ne_true
  | ok n => exact ⟨hw, ht, hencodable, by decide, n, c, hrun, hbytes n rfl⟩

end Codec

end Foam
