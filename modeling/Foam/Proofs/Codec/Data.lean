import Foam.Codec.Datum
import Foam.Proofs.Codec.Cursor

/-!
# Data put and taken

Writing puts the big-endian forms of data, one behind the other, in place of as many bytes from the
cursor on, and appends what reaches past the end. Taking data of the same sorts from the place where
writing began gives them back (`putData_splices`). Whoever asks for more bytes than there are leaves
the buffer as it is.
-/

namespace Foam.Codec

/-! ## Big-endian forms -/

namespace Word

/-- A number in `width` bytes. The byte at place `i` counts how often the value of that place,
`256 ^ (width - 1 - i)`, goes into the number. -/
def bigEndian (width : Nat) (v : Int) : List UInt8 :=
  (List.range width).map fun i => UInt8.ofNat (v / (256 : Int) ^ (width - 1 - i) % 256).toNat

theorem toBytes_eq_bigEndian (width n : Nat) : toBytes width n = bigEndian width n := by
  induction width generalizing n with
  | zero => rfl
  | succ width ih =>
      have hlast : UInt8.ofNat n = UInt8.ofNat ((n : Int) / 256 ^ (width - width) % 256).toNat := by
        rw [Nat.sub_self, Int.pow_zero, Int.ediv_one]
        apply UInt8.toNat_inj.mp
        rw [UInt8.toNat_ofNat', UInt8.toNat_ofNat']
        omega
      rw [toBytes, ih, bigEndian, bigEndian, List.range_succ, List.map_append, List.map_singleton,
        Nat.add_sub_cancel, ← hlast]
      congr 1
      refine List.map_congr_left fun i hi => ?_
      have hi : i < width := List.mem_range.mp hi
      have hplace : width - i = (width - 1 - i) + 1 := by omega
      rw [hplace, Int.pow_succ', ← Int.ediv_ediv_of_nonneg (by decide)]
      rfl

/-- The residue by which a signed number is kept has the same digits. -/
theorem ofInt_eq_bigEndian (width : Nat) (v : Int) : ofInt width v = bigEndian width v := by
  have hpos : (0 : Int) < 2 ^ (8 * width) := Int.pow_pos (by decide)
  rw [ofInt_eq, toBytes_eq_bigEndian, Int.toNat_of_nonneg (Int.emod_nonneg v (Int.ne_of_gt hpos))]
  refine List.map_congr_left fun i hi => ?_
  have hi : i < width := List.mem_range.mp hi
  generalize hk : width - 1 - i = k
  have hplaces : (2 : Int) ^ (8 * width) = 256 ^ k * (256 * 256 ^ (width - 1 - k)) := by
    rw [← Int.pow_succ', ← Int.pow_add, Int.pow_mul]
    congr 1
    omega
  have hresidue : v % (2 : Int) ^ (8 * width) =
      v + 256 ^ k * (256 * (256 ^ (width - 1 - k) * -(v / 2 ^ (8 * width)))) := by
    rw [← Int.mul_assoc 256, ← Int.mul_assoc (256 ^ k), ← hplaces, Int.mul_neg,
      ← Int.sub_eq_add_neg, Int.emod_def]
  rw [hresidue, Int.add_mul_ediv_left _ _ (Int.ne_of_gt (Int.pow_pos (by decide))),
    Int.add_mul_emod_self_left]

end Word

/-- The big-endian form of a number; bytes as they are. -/
def Datum.bigEndian : Datum → List UInt8
  | uint8 v => Word.bigEndian 1 v.toNat
  | uint16 v => Word.bigEndian 2 v.toNat
  | int16 v => Word.bigEndian 2 v.toInt
  | int32 v => Word.bigEndian 4 v.toInt
  | uint32 v => Word.bigEndian 4 v.toNat
  | uint64 v => Word.bigEndian 8 v.toNat
  | bytes data => data

theorem Datum.bigEndian_eq_stored (d : Datum) : d.bigEndian = d.stored := by
  cases d with
  | int16 v => exact (Word.ofInt_eq_bigEndian 2 _).symm
  | int32 v => exact (Word.ofInt_eq_bigEndian 4 _).symm
  | bytes data => rfl
  | _ => exact (Word.toBytes_eq_bigEndian _ _).symm

/-! ## Writing -/

theorem Buffer.putData_mid (before after : List UInt8) (ds : List Datum) :
    (mid before after).putData ds = mid (before ++ ds.flatMap Datum.stored)
      (after.drop (ds.flatMap Datum.stored).length) := by
  induction ds generalizing before after with
  | nil => simp [putData]
  | cons d ds ih =>
      have hstep : (mid before after).putData (d :: ds) =
          ((mid before after).put d.stored).putData ds := rfl
      rw [hstep, put_mid, ih, List.flatMap_cons, List.append_assoc, List.drop_drop,
        List.length_append]

/-! ## Reading -/

/-- A datum is taken from the bytes that are stored for it. -/
theorem DatumSort.get_stored (d : Datum) : Reads d.sort.get d.stored d := by
  have unsigned : ∀ {width n : Nat} {f : Nat → Datum}, n < 256 ^ width → f n = d →
      Reads (return f (← getUnsigned width)) (Word.toBytes width n) d := by
    rintro width n f h rfl
    exact (getUnsigned_toBytes width h).map
  have signed : ∀ {width : Nat} {v : Int} {f : Int → Datum}, 0 < width →
      Word.fitsSigned width v = true → f v = d →
      Reads (return f (← getSigned width)) (Word.ofInt width v) d := by
    rintro width v f hwidth h rfl
    exact (getSigned_ofInt hwidth h).map
  cases d with
  | uint8 v => exact unsigned v.toNat_lt (congrArg Datum.uint8 UInt8.ofNat_toNat)
  | uint16 v => exact unsigned v.toNat_lt (congrArg Datum.uint16 UInt16.ofNat_toNat)
  | int16 v =>
      have hfits : Word.fitsSigned 2 v.toInt = true := Word.fitsSigned_iff.mpr ⟨v.le_toInt, v.toInt_lt⟩
      exact signed (by decide) hfits (congrArg Datum.int16 (Int16.ofInt_toInt v))
  | int32 v =>
      have hfits : Word.fitsSigned 4 v.toInt = true := Word.fitsSigned_iff.mpr ⟨v.le_toInt, v.toInt_lt⟩
      exact signed (by decide) hfits (congrArg Datum.int32 (Int32.ofInt_toInt v))
  | uint32 v => exact unsigned v.toNat_lt (congrArg Datum.uint32 UInt32.ofNat_toNat)
  | uint64 v => exact unsigned v.toNat_lt (congrArg Datum.uint64 UInt64.ofNat_toNat)
  | bytes data => exact (take_reads data).map

theorem getData_stored (ds : List Datum) :
    Reads (getData (ds.map Datum.sort)) (ds.flatMap Datum.stored) ds := by
  induction ds with
  | nil => exact .pure _
  | cons d ds ih =>
      rw [getData, List.map_cons, List.mapM_cons, List.flatMap_cons]
      exact (DatumSort.get_stored d).bind ih.map

theorem take_short {n : Nat} {b : Buffer} (h : b.remaining < n) :
    take n b = (.error (.unexpectedEnd b.pos n b.size), b) := by
  unfold take
  rw [GetM.bind_ok (GetM.get_apply b), if_neg (Nat.not_le.mpr h)]
  rfl

/-- Where there are too few bytes none are taken. -/
theorem DatumSort.get_short {s : DatumSort} {b : Buffer} (h : b.remaining < s.width) :
    s.get b = (.error (.unexpectedEnd b.pos s.width b.size), b) := by
  cases s with
  | bytes count => exact GetM.bind_error (take_short h)
  | int16 => exact GetM.bind_error (GetM.bind_error (GetM.bind_error (take_short h)))
  | int32 => exact GetM.bind_error (GetM.bind_error (GetM.bind_error (take_short h)))
  | _ => exact GetM.bind_error (GetM.bind_error (take_short h))

/-! ## Writing and reading -/

/-- Data that are put replace as many bytes from the cursor on as they have, or add to them at the
end, and nothing else changes. The cursor is behind them then. Taken from where they begin, the data
come back, and the cursor with them. Who takes more than there is gets nothing and changes nothing. -/
theorem putData_splices (b : Buffer) (ds : List Datum) :
    let l := ds.flatMap Datum.bigEndian
    let c := b.putData ds
    c.toList = b.toList.take b.pos ++ l ++ b.toList.drop (b.pos + l.length) ∧
      (∀ i, i < b.pos ∨ b.pos + l.length ≤ i → c.toList[i]? = b.toList[i]?) ∧
      c.pos = b.pos + l.length ∧ c.pos ≤ c.size ∧
      getData (ds.map Datum.sort) (c.seek b.pos) = (.ok ds, c) ∧
      ∀ s : DatumSort, b.remaining < s.width →
        s.get b = (.error (.unexpectedEnd b.pos s.width b.size), b) := by
  rw [funext Datum.bigEndian_eq_stored]
  intro l c
  obtain ⟨before, after, rfl⟩ : ∃ before after, b = .mid before after := ⟨_, _, b.eq_mid⟩
  have hc : c = .mid (before ++ l) (after.drop l.length) := Buffer.putData_mid before after ds
  have hbytes : c.toList = before ++ l ++ after.drop l.length := by rw [hc, Buffer.toList_mid]
  have hpos : c.pos = before.length + l.length := by rw [hc, Buffer.pos_mid, List.length_append]
  refine ⟨?splice, ?outside, hpos, c.pos_le, ?back, fun s => DatumSort.get_short⟩
  case splice =>
    rw [hbytes, Buffer.toList_mid, Buffer.pos_mid, List.take_left, List.drop_append]
    simp
  case outside =>
    intro i hi
    rw [Buffer.pos_mid] at hi
    rw [hbytes, Buffer.toList_mid]
    rcases hi with hi | hi
    · rw [List.append_assoc, List.getElem?_append_left hi, List.getElem?_append_left hi]
    · rw [List.getElem?_append_right (by simpa using hi), List.getElem?_drop,
        List.getElem?_append_right (by omega)]
      congr 1
      rw [List.length_append]
      omega
  case back =>
    have hseek : c.seek before.length = .mid before (l ++ after.drop l.length) := by
      rw [hc, Buffer.seek_pos _ _ _ (by simp), List.take_left, List.drop_left]
    rw [Buffer.pos_mid, hseek, hc]
    exact getData_stored ds before _

/-- Two bytes of three are behind the cursor. What is put goes over the third and past the end, with
the least and the greatest number of a sort among it. -/
theorem putData_splices_past_end :
    let b : Buffer := .mid [1, 2] [3]
    let ds : List Datum := [.int16 (-32768), .bytes [9], .uint32 0xFFFFFFFF]
    let l := ds.flatMap Datum.bigEndian
    let c := b.putData ds
    l = [0x80, 0, 9, 255, 255, 255, 255] ∧
      c.toList = b.toList.take b.pos ++ l ++ b.toList.drop (b.pos + l.length) ∧
      (∀ i, i < b.pos ∨ b.pos + l.length ≤ i → c.toList[i]? = b.toList[i]?) ∧
      c.pos = b.pos + l.length ∧ c.pos ≤ c.size ∧
      getData (ds.map Datum.sort) (c.seek b.pos) = (.ok ds, c) ∧
      b.remaining < DatumSort.width .uint16 ∧
      ∀ s : DatumSort, b.remaining < s.width →
        s.get b = (.error (.unexpectedEnd b.pos s.width b.size), b) := by
  intro b ds l c
  obtain ⟨hsplice, houtside, hpos, hle, hback, hshort⟩ := putData_splices b ds
  exact ⟨by decide, hsplice, houtside, hpos, hle, hback, by decide, hshort⟩

end Foam.Codec
