import Foam.Proofs.Codec.Cursor
import Foam.Proofs.Codec.Reader

/-!
# Heads and scalars read back

The tag byte tells the tag and the format of a node, the count follows, and every slot that is no
child comes back from its bytes: all but the length of a procedure, which reading does not keep.
-/

namespace Foam.Codec

/-! ## Text -/

theorem byteList_loop (bs : ByteArray) (i : Nat) (r : List UInt8) :
    ByteArray.toList.loop bs i r = r.reverse ++ bs.data.toList.drop i := by
  induction h : bs.size - i generalizing i r with
  | zero =>
      have hle : bs.data.toList.length ≤ i := by
        rw [Array.length_toList]
        exact Nat.le_of_sub_eq_zero h
      rw [ByteArray.toList.loop, if_neg (by omega), List.drop_eq_nil_of_le hle, List.append_nil]
  | succ n ih =>
      have hlt : i < bs.data.toList.length := by
        rw [Array.length_toList]
        change i < bs.size
        omega
      have hget : bs.get! i = bs.data.toList[i] := by
        rw [Array.getElem_toList]
        exact getElem!_pos bs.data i _
      rw [ByteArray.toList.loop, if_pos (by omega), ih (i + 1) _ (by omega),
        List.drop_eq_getElem_cons hlt, hget]
      simp

theorem byteList_eq (bs : ByteArray) : bs.toList = bs.data.toList := by
  rw [ByteArray.toList, byteList_loop]
  rfl

theorem length_utf8 (s : String) : s.toUTF8.toList.length = s.utf8ByteSize := by
  rw [byteList_eq, Array.length_toList]
  rfl

theorem fromUTF8?_bytes (s : String) : String.fromUTF8? ⟨s.toUTF8.toList.toArray⟩ = some s := by
  have hbytes : (⟨s.toUTF8.toList.toArray⟩ : ByteArray) = s.toByteArray := by
    rw [byteList_eq, Array.toArray_toList]
    rfl
  rw [hbytes, String.fromUTF8?, dif_pos s.isValidUTF8]
  rfl

theorem getString_bytes {f : IntFormat} {s : String} (h : f.holds s.utf8ByteSize = true) :
    Reads (getString f) (f.bytes s.utf8ByteSize ++ s.toUTF8.toList) s := by
  refine (getLength_bytes h).bind (.position fun pos => ?_)
  rw [← List.append_nil s.toUTF8.toList]
  have htake := take_reads s.toUTF8.toList
  rw [length_utf8] at htake
  refine htake.bind ?_
  rw [fromUTF8?_bytes]
  exact .pure s

/-! ## Bignums -/

theorem getPlaces_bytes (ps : List UInt16) :
    Reads ((List.replicate ps.length ()).mapM fun _ => return UInt16.ofNat (← getUnsigned 2))
      (ps.flatMap fun n => Word.toBytes 2 n.toNat) ps := by
  induction ps with
  | nil => exact .pure _
  | cons p ps ih =>
      rw [List.length_cons, List.replicate_succ, List.mapM_cons, List.flatMap_cons]
      have hplace : Reads (return UInt16.ofNat (← getUnsigned 2)) (Word.toBytes 2 p.toNat) p := by
        have := (getUnsigned_toBytes 2 p.toNat_lt).map (g := UInt16.ofNat)
        rwa [UInt16.ofNat_toNat] at this
      exact hplace.bind ih.map

theorem length_places (ps : List UInt16) :
    (ps.flatMap fun n => Word.toBytes 2 n.toNat).length = 2 * ps.length := by
  induction ps with
  | nil => rfl
  | cons p ps ih =>
      rw [List.flatMap_cons, List.length_append, ih, Word.length_toBytes, List.length_cons]
      omega

theorem getBignum_bytes {f : IntFormat} {b : Bignum} (h : f.holds b.places.length = true) :
    Reads (getBignum f) (Word.toBytes 1 (if b.negative then 1 else 0) ++ f.bytes b.places.length ++
      b.places.flatMap fun n => Word.toBytes 2 n.toNat) b := by
  have hsign : Reads (getUnsigned 1) (Word.toBytes 1 (if b.negative then 1 else 0))
      (if b.negative then 1 else 0) := by
    apply getUnsigned_toBytes
    split <;> decide
  rw [List.append_assoc]
  -- the places must be there before they are read
  refine hsign.bind ((getLength_bytes h).bind (.get fun c hc => ?_))
  rw [length_places] at hc
  rw [if_neg (by omega)]
  have hnegative : ((if b.negative then 1 else 0 : Nat) != 0) = b.negative := by
    cases b.negative <;> rfl
  have hplaces := (getPlaces_bytes b.places).map (g := Bignum.ofPlaces b.negative)
  rw [hnegative]
  rwa [Bignum.ofPlaces_places] at hplaces

/-! ## Slots -/

namespace Place

variable {p : Place} {kind : FieldKind} {bs : List UInt8}

theorem ranged_eq_pure {v : Int} {fits : Bool} {bytes : List UInt8} :
    p.ranged kind v fits bytes = pure bs ↔ fits = true ∧ bytes = bs := by
  unfold ranged
  cases fits with
  | false => exact ⟨fun h => absurd h EncodeM.throw_ne_pure, fun h => absurd h.1 (by decide)⟩
  | true => exact ⟨fun h => ⟨rfl, EncodeM.pure_inj h⟩, fun h => congrArg pure h.2⟩

theorem formatted_eq_pure {f : IntFormat} {v : Int} :
    p.formatted kind f v = pure bs ↔ f.holds v = true ∧ f.bytes v = bs :=
  ranged_eq_pure

end Place

theorem ofNat_toNat_toInt {v : Int64} (h : (v.toInt.toNat : Int) = v.toInt) :
    Int64.ofNat v.toInt.toNat = v := by
  rw [← Int64.ofInt_eq_ofNat, h, Int64.ofInt_toInt]

theorem getOrdinal_ofInt {α : Type} [Table α] {sort : NameSort} {width : Nat} {tag : Tag} {i : Nat}
    {v : Int64} (h : Word.fitsUnsigned width v.toInt = true)
    (hv : (Table.ofOrdinal? v.toInt : Option α).isSome = true) :
    Reads (getOrdinal α sort width tag i) (Word.ofInt width v.toInt) (.int v) := by
  have hcast := natCast_toNat_of_fitsUnsigned h
  have hlt : v.toInt.toNat < Table.size α := by
    rw [Option.isSome_iff_ne_none, Ne, Table.ofOrdinal?_eq_none_iff] at hv
    omega
  rw [← List.append_nil (Word.ofInt width v.toInt)]
  refine (getUnsigned_ofInt h).bind ?_
  rw [if_pos hlt, ofNat_toNat_toInt hcast]
  exact .pure _

theorem getByte_ofInt {v : Int64} (h : Word.fitsUnsigned 1 v.toInt = true) :
    Reads (return .int (Int64.ofNat (← getUnsigned 1))) (Word.ofInt 1 v.toInt) (Slot.int v) := by
  have := (getUnsigned_ofInt h).map (g := fun n => Slot.int (Int64.ofNat n))
  rwa [ofNat_toNat_toInt (natCast_toNat_of_fitsUnsigned h)] at this

theorem getInt_of_reads {x : GetM Int} {l : List UInt8} {v : Int64} (h : Reads x l v.toInt) :
    Reads (return .int (Int64.ofInt (← x))) l (Slot.int v) := by
  have := h.map (g := fun n => Slot.int (Int64.ofInt n))
  rwa [Int64.ofInt_toInt] at this

/-- A slot that is written for a kind is read back for it. -/
theorem getScalar_slot {head : Head} {p : Place} {kind : FieldKind} {s : Slot} {bs : List UInt8}
    {child : NodeId → EncodeM (List UInt8)} (i : Nat) (hformat : head.format = p.format)
    (hk : kind ≠ .treeLength) (hs : s.Sound kind)
    (hb : p.slot child kind s = pure bs) : Reads (getScalar head p.labels i kind) bs s := by
  obtain ⟨hchild, hfits, htable⟩ := hs
  cases s with
  | int v =>
      change p.int kind v.toInt = pure bs at hb
      -- the kind alone says how an integer is written, four kinds by the table that it names
      cases kind with
      | typeTag =>
          obtain ⟨h, rfl⟩ := Place.ranged_eq_pure.mp hb
          exact getOrdinal_ofInt h htable
      | builtin =>
          obtain ⟨h, rfl⟩ := Place.ranged_eq_pure.mp hb
          exact getOrdinal_ofInt h htable
      | protocol =>
          obtain ⟨h, rfl⟩ := Place.ranged_eq_pure.mp hb
          exact getOrdinal_ofInt h htable
      | declUsage =>
          obtain ⟨h, rfl⟩ := Place.ranged_eq_pure.mp hb
          exact getOrdinal_ofInt h htable
      | byte =>
          obtain ⟨h, rfl⟩ := Place.ranged_eq_pure.mp hb
          exact getByte_ofInt h
      | halfWord =>
          obtain ⟨h, rfl⟩ := Place.ranged_eq_pure.mp hb
          exact getInt_of_reads (getSigned_ofInt (by decide) h)
      | word | labelFormat =>
          obtain ⟨h, rfl⟩ := Place.ranged_eq_pure.mp hb
          exact getInt_of_reads (getSigned_ofInt (by decide) h)
      | label =>
          obtain ⟨h, rfl⟩ := Place.formatted_eq_pure.mp hb
          exact getInt_of_reads (get_bytes h)
      | index =>
          obtain ⟨h, rfl⟩ := Place.formatted_eq_pure.mp hb
          rw [← hformat] at h ⊢
          exact getInt_of_reads (get_bytes h)
      | treeLength => exact absurd rfl hk
      | _ => cases hfits
  | str s =>
      obtain rfl : kind = .str := by simpa [Slot.fits] using hfits
      obtain ⟨n, hn, hb⟩ := EncodeM.bind_eq_pure.mp hb
      obtain ⟨h, rfl⟩ := Place.formatted_eq_pure.mp hn
      obtain rfl := EncodeM.pure_inj hb
      rw [← hformat] at h ⊢
      exact (getString_bytes h).map
  | sflo b =>
      obtain rfl : kind = .sflo := by simpa [Slot.fits] using hfits
      obtain rfl := EncodeM.pure_inj hb
      have := (getUnsigned_toBytes 4 b.toNat_lt).map
        (g := fun n => Slot.sflo (UInt32.ofNat n))
      rwa [UInt32.ofNat_toNat] at this
  | dflo b =>
      obtain rfl : kind = .dflo := by simpa [Slot.fits] using hfits
      obtain rfl := EncodeM.pure_inj hb
      have := (getUnsigned_toBytes 8 b.toNat_lt).map
        (g := fun n => Slot.dflo (UInt64.ofNat n))
      rwa [UInt64.ofNat_toNat] at this
  | bint b =>
      obtain rfl : kind = .bint := by simpa [Slot.fits] using hfits
      obtain ⟨n, hn, hb⟩ := EncodeM.bind_eq_pure.mp hb
      obtain ⟨h, rfl⟩ := Place.formatted_eq_pure.mp hn
      obtain rfl := EncodeM.pure_inj hb
      rw [← hformat] at h ⊢
      exact (getBignum_bytes h).map
  | code c => exact absurd (by simpa [Slot.fits] using hfits) hchild
  | arb v => exact absurd hb EncodeM.throw_ne_pure

/-- A length is passed over. -/
theorem getScalar_treeLength (head : Head) (labels : IntFormat) (i : Nat) {l : List UInt8}
    (hl : l.length = 4) : Reads (getScalar head labels i .treeLength) l (.int 0) := by
  have := (getUnsigned_reads l).map (g := fun _ => Slot.int 0)
  rwa [hl] at this

/-! ## Heads -/

theorem splitByte?_fold_all : ∀ tag ∈ Tag.all, ∀ f ∈ IntFormat.all,
    splitByte? (fold tag f) = some (tag, if tag.isExtended then f else .word) := by
  decide +kernel

/-- The tag byte of a node tells its tag and its format. -/
theorem splitByte?_fold (n : Node) :
    splitByte? (fold n.tag (.ofNode n)) = some (n.tag, .ofNode n) := by
  -- a check of all pairs covers the node, as every tag and every format is in its list
  have htag : n.tag ∈ Tag.all := List.mem_of_getElem? (Tag.all_ordinal n.tag)
  have hformat : ∀ f : IntFormat, f ∈ IntFormat.all := by
    rintro (_ | _ | k)
    · decide
    · decide
    · revert k
      decide
  rw [splitByte?_fold_all _ htag _ (hformat _)]
  congr 2
  unfold IntFormat.ofNode
  split <;> rfl

/-- The bytes of a node before its slots. -/
def headBytes (n : Node) : EncodeM (List UInt8) := do
  let f := IntFormat.ofNode n
  let count ← if n.tag.isVariadic then (f.put n.slots.length : Checked _) else pure []
  return fold n.tag f :: count

theorem headBytes_eq_pure {n : Node} {hb : List UInt8} : headBytes n = pure hb ↔
    ∃ count, hb = fold n.tag (.ofNode n) :: count ∧
      if n.tag.isVariadic then (IntFormat.ofNode n).holds n.slots.length = true ∧
        count = (IntFormat.ofNode n).bytes n.slots.length
      else count = [] := by
  unfold headBytes
  by_cases hv : n.tag.isVariadic = true
  · simp only [hv, if_true]
    by_cases hh : (IntFormat.ofNode n).holds n.slots.length = true
    · rw [IntFormat.put, if_pos hh]
      constructor
      · intro h
        exact ⟨_, (EncodeM.pure_inj h).symm, hh, rfl⟩
      · rintro ⟨_, rfl, -, rfl⟩
        rfl
    · rw [IntFormat.put, if_neg hh]
      constructor
      · intro h
        cases h
      · rintro ⟨_, -, h, -⟩
        exact absurd h hh
  · simp only [hv]
    constructor
    · intro h
      exact ⟨[], (EncodeM.pure_inj h).symm, rfl⟩
    · rintro ⟨_, rfl, rfl⟩
      rfl

theorem getCount_bytes {tag : Tag} {f : IntFormat} {n : Nat} (hn : f.holds n = true)
    (hleast : tag.layout.minSlots ≤ n) (before : List UInt8) {after : List UInt8}
    (hafter : n ≤ tag.layout.minSlots + after.length) :
    getCount tag f (.mid before (f.bytes n ++ after)) =
      (.ok n, .mid (before ++ f.bytes n) after) := by
  unfold getCount
  rw [GetM.bind_ok (get_bytes hn before after)]
  dsimp only
  rw [if_neg (by omega), GetM.bind_ok (GetM.get_apply _), Buffer.remaining_mid,
    Int.toNat_natCast, if_neg (by omega)]
  rfl

/-- A head is read back if as many bytes follow as its count asks for. -/
theorem getHead_headBytes {n : Node} {hb : List UInt8}
    (haccepts : n.tag.layout.accepts n.slots.length = true) (hhead : headBytes n = pure hb)
    (before : List UInt8) {after : List UInt8}
    (hafter : n.slots.length ≤ n.tag.layout.minSlots + after.length) :
    getHead (.mid before (hb ++ after)) =
      (.ok ⟨n.tag, .ofNode n, n.slots.length, before.length⟩, .mid (before ++ hb) after) := by
  obtain ⟨count, rfl, hcount⟩ := headBytes_eq_pure.mp hhead
  have hread : Reads (getUnsigned 1) [fold n.tag (.ofNode n)] (fold n.tag (.ofNode n)).toNat := by
    have := getUnsigned_reads [fold n.tag (.ofNode n)]
    simpa [Word.ofBytes] using this
  have hbyte : getUnsigned 1 (.mid before (fold n.tag (.ofNode n) :: count ++ after)) =
      (.ok (fold n.tag (.ofNode n)).toNat,
        .mid (before ++ [fold n.tag (.ofNode n)]) (count ++ after)) := hread before (count ++ after)
  have hpos : position (.mid before (fold n.tag (.ofNode n) :: count ++ after)) =
      (.ok before.length, .mid before (fold n.tag (.ofNode n) :: count ++ after)) := rfl
  unfold getHead
  rw [GetM.bind_ok hpos, GetM.bind_ok hbyte]
  simp only [UInt8.ofNat_toNat, splitByte?_fold]
  by_cases hv : n.tag.isVariadic = true
  · rw [if_pos hv] at hcount ⊢
    obtain ⟨hholds, rfl⟩ := hcount
    have hleast : n.tag.layout.minSlots ≤ n.slots.length := by
      simpa [Layout.accepts, show n.tag.layout.isVariadic = true from hv] using haccepts
    rw [GetM.bind_ok (getCount_bytes hholds hleast _ hafter), List.append_assoc]
    rfl
  · rw [if_neg hv] at hcount ⊢
    subst hcount
    have hlen : n.slots.length = n.tag.layout.minSlots := by
      have hv' : n.tag.layout.isVariadic = false := by simpa [Tag.isVariadic] using hv
      simpa [Layout.accepts, hv'] using haccepts
    rw [hlen]
    rfl

/-- After a head that is read back, reading goes on with that head, wherever it stood. -/
theorem reads_of_head {β : Type} {f : Head → GetM β} {head : Nat → Head} {hb l : List UInt8} {w : β}
    (hhead : ∀ before after, getHead (.mid before (hb ++ (l ++ after))) =
      (.ok (head before.length), .mid (before ++ hb) (l ++ after)))
    (h : ∀ pos, Reads (f (head pos)) l w) : Reads (getHead >>= f) (hb ++ l) w := by
  intro before after
  rw [List.append_assoc, GetM.bind_ok (hhead before after), h, List.append_assoc]

end Foam.Codec
