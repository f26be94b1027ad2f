import Foam.Codec.Encode
import Foam.Proofs.Codec.Run
import Mathlib.Algebra.Group.Int.Defs
import Mathlib.Algebra.Group.Nat.Defs

/-!
# Reading what was written

A buffer with the cursor in the middle is written `Buffer.mid before after`. `Reads x l v` says that
`x`, wherever the bytes `l` stand ahead of the cursor, takes exactly these and gives `v`. What the
encoder writes for a word, a string or a bignum the decoder reads back in this sense.
-/

namespace Foam.Codec

/-! ## Words -/

namespace Word

theorem fitsSigned_iff {width : Nat} {v : Int} : fitsSigned width v = true ↔
    -(2 : Int) ^ (8 * width - 1) ≤ v ∧ v < (2 : Int) ^ (8 * width - 1) := by
  rw [fitsSigned, Bool.and_eq_true, decide_eq_true_eq, decide_eq_true_eq]
  rfl

theorem fitsUnsigned_iff {width : Nat} {v : Int} :
    fitsUnsigned width v = true ↔ 0 ≤ v ∧ v < (2 : Int) ^ (8 * width) := by
  rw [fitsUnsigned, Bool.and_eq_true, decide_eq_true_eq, decide_eq_true_eq]
  rfl

theorem ofInt_eq (width : Nat) (v : Int) :
    ofInt width v = toBytes width (v % (2 : Int) ^ (8 * width)).toNat := rfl

theorem signed_eq (width n : Nat) : signed width n =
    if n < 2 ^ (8 * width - 1) then (n : Int) else n - (2 : Int) ^ (8 * width) := rfl

/-- A number that fits the width is read back. -/
theorem ofBytes_toBytes (width n : Nat) : ofBytes (toBytes width n) = n % 256 ^ width := by
  induction width generalizing n with
  | zero => simp [toBytes, ofBytes, Nat.mod_one]
  | succ width ih =>
    rw [toBytes, ofBytes_append_singleton, ih, Nat.pow_succ', Nat.mod_mul]
    simp [UInt8.toNat_ofNat', Nat.add_comm]

theorem ofBytes_ofInt (width : Nat) (v : Int) :
    (ofBytes (ofInt width v) : Int) = v % (2 : Int) ^ (8 * width) := by
  have hpos : (0 : Int) < 2 ^ (8 * width) := Int.pow_pos (by decide)
  have hlow : 0 ≤ v % (2 : Int) ^ (8 * width) := Int.emod_nonneg v (Int.ne_of_gt hpos)
  have hhigh : v % (2 : Int) ^ (8 * width) < 2 ^ (8 * width) := Int.emod_lt_of_pos v hpos
  have hlt : (v % (2 : Int) ^ (8 * width)).toNat < 256 ^ width := by
    rw [← Int.ofNat_lt, Int.toNat_of_nonneg hlow, show 256 = 2 ^ 8 from rfl, ← Nat.pow_mul]
    exact_mod_cast hhigh
  rw [ofInt_eq, ofBytes_toBytes, Nat.mod_eq_of_lt hlt, Int.toNat_of_nonneg hlow]

theorem ofBytes_ofInt_of_fitsUnsigned {width : Nat} {v : Int}
    (h : fitsUnsigned width v = true) : (ofBytes (ofInt width v) : Int) = v := by
  rw [fitsUnsigned_iff] at h
  rw [ofBytes_ofInt, Int.emod_eq_of_lt h.1 h.2]

theorem signed_ofBytes_ofInt {width : Nat} {v : Int} (hw : 0 < width)
    (h : fitsSigned width v = true) : signed width (ofBytes (ofInt width v)) = v := by
  rw [fitsSigned_iff] at h
  have hhalf : (2 : Int) ^ (8 * width) = 2 * 2 ^ (8 * width - 1) := by
    rw [← Int.pow_succ']
    congr 1
    omega
  have hcast : ((2 ^ (8 * width - 1) : Nat) : Int) = 2 ^ (8 * width - 1) := by norm_cast
  have hn := ofBytes_ofInt width v
  rw [signed_eq]
  split
  · next hlt =>
      rw [hn]
      have hlt : ((ofBytes (ofInt width v) : Nat) : Int) < 2 ^ (8 * width - 1) := by
        rw [← hcast]
        exact_mod_cast hlt
      rw [hn] at hlt
      rcases Int.lt_or_le v 0 with hv | hv
      · have hmod : v % (2 : Int) ^ (8 * width) = v + 2 ^ (8 * width) := by
          rw [← Int.add_emod_right, Int.emod_eq_of_lt (by omega) (by omega)]
        omega
      · exact Int.emod_eq_of_lt hv (by omega)
  · next hge =>
      have hge : (2 : Int) ^ (8 * width - 1) ≤ ((ofBytes (ofInt width v) : Nat) : Int) := by
        rw [← hcast]
        exact_mod_cast Nat.le_of_not_lt hge
      rw [hn] at hge ⊢
      rcases Int.lt_or_le v 0 with hv | hv
      · have hmod : v % (2 : Int) ^ (8 * width) = v + 2 ^ (8 * width) := by
          rw [← Int.add_emod_right, Int.emod_eq_of_lt (by omega) (by omega)]
        omega
      · rw [Int.emod_eq_of_lt hv (by omega)] at hge
        omega

theorem ofBytes_ofInt_length {n : Nat} (h : n < 2 ^ 32) : ofBytes (ofInt 4 n) = n := by
  have hword := ofBytes_ofInt 4 n
  rw [Int.emod_eq_of_lt (by omega) (by omega)] at hword
  exact_mod_cast hword

theorem length_ofInt (width : Nat) (v : Int) : (ofInt width v).length = width :=
  length_toBytes ..

end Word

/-! ## Cursors -/

/-- The bytes `before` and then `after`, with the cursor between them. -/
def Buffer.mid (before after : List UInt8) : Buffer where
  bytes := (before ++ after).toArray
  pos := before.length
  pos_le := by simp

namespace Buffer

@[simp] theorem toList_mid (before after : List UInt8) :
    (mid before after).toList = before ++ after := rfl

@[simp] theorem pos_mid (before after : List UInt8) : (mid before after).pos = before.length := rfl

@[simp] theorem size_mid (before after : List UInt8) :
    (mid before after).size = before.length + after.length := by
  simp [mid, size]

@[simp] theorem remaining_mid (before after : List UInt8) :
    (mid before after).remaining = after.length := by
  simp [remaining]

theorem ext {b c : Buffer} (hbytes : b.bytes = c.bytes) (hpos : b.pos = c.pos) : b = c := by
  obtain ⟨bytes, pos, _⟩ := b
  obtain ⟨_, _, _⟩ := c
  obtain rfl : bytes = _ := hbytes
  obtain rfl : pos = _ := hpos
  rfl

/-- Every buffer has its cursor in the middle. -/
theorem eq_mid (b : Buffer) : b = mid (b.toList.take b.pos) (b.toList.drop b.pos) := by
  apply ext
  · simp [mid, toList]
  · have := b.pos_le
    simp [toList, this]

theorem take_mid (before after : List UInt8) :
    (mid before after).toList.take (mid before after).pos = before := by
  simp [mid, toList]

theorem seek_mid (before l after : List UInt8) :
    (mid before (l ++ after)).seek (before.length + l.length) = mid (before ++ l) after := by
  apply ext
  · simp [mid, seek]
  · simp [mid, seek]

theorem seek_pos (before after : List UInt8) (pos : Nat) (h : pos ≤ before.length) :
    (mid before after).seek pos = mid (before.take pos) (before.drop pos ++ after) := by
  apply ext
  · simp [mid, seek, ← List.append_assoc]
  · simp [mid, seek]
    omega

theorem putByte_mid (before after : List UInt8) (v : UInt8) :
    (mid before after).putByte v = mid (before ++ [v]) (after.drop 1) := by
  unfold putByte
  cases after with
  | nil =>
      rw [dif_neg (by simp [mid])]
      exact ext (by simp [mid]) (by simp [mid])
  | cons w after =>
      rw [dif_pos (by simp [mid])]
      exact ext (by simp [mid]) (by simp [mid])

/-- Bytes that are put stand before the cursor then, and over those that were ahead of it. -/
theorem put_mid (before after data : List UInt8) :
    (mid before after).put data = mid (before ++ data) (after.drop data.length) := by
  induction data generalizing before after with
  | nil => simp [put]
  | cons v data ih =>
      have hstep : (mid before after).put (v :: data) = ((mid before after).putByte v).put data :=
        rfl
      rw [hstep, putByte_mid, ih]
      simp [List.append_assoc]

/-- Bytes that are put are copied over those ahead of the cursor as far as these reach, and the others
appended. -/
theorem put_copies (b : Buffer) (data : List UInt8) :
    let stop := b.pos + data.length
    let overlap := min stop b.size - b.pos
    let copied := b.toList.take b.pos ++ data.take overlap ++ b.toList.drop (b.pos + overlap)
    (b.put data).toList = copied ++ data.drop overlap ∧ (b.put data).pos = stop := by
  rw [eq_mid b]
  generalize b.toList.take b.pos = before, b.toList.drop b.pos = after
  intro stop overlap copied
  have hcopied : copied = before ++ data.take overlap ++ after.drop overlap := by
    show (before ++ after).take before.length ++ data.take overlap ++
      (before ++ after).drop (before.length + overlap) = _
    rw [List.take_left, List.drop_append]
    simp
  have hoverlap : overlap = min data.length after.length := by
    show min (before.length + data.length) (mid before after).size - before.length = _
    rw [size_mid]
    omega
  rw [put_mid, hcopied]
  refine ⟨?_, by simp [stop]⟩
  rw [toList_mid]
  rcases Nat.le_total data.length after.length with hle | hle
  · rw [hoverlap, Nat.min_eq_left hle, List.take_length, List.drop_length, List.append_nil]
  · rw [hoverlap, Nat.min_eq_right hle, List.drop_length, List.drop_eq_nil_of_le hle,
      List.append_nil, List.append_nil, List.append_assoc, List.take_append_drop]

end Buffer

/-! ## Reading back -/

section

variable {α β : Type} {x : GetM α} {f : α → GetM β} {l m : List UInt8} {v : α} {w : β}

/-- The reader takes the bytes `l`, whatever stands before and after them, and gives `v`. -/
def Reads (x : GetM α) (l : List UInt8) (v : α) : Prop :=
  ∀ before after, x (.mid before (l ++ after)) = (.ok v, .mid (before ++ l) after)

namespace Reads

theorem pure (v : α) : Reads (pure v) [] v := by
  intro before after
  rw [List.append_nil]
  rfl

theorem bind (h : Reads x l v) (h' : Reads (f v) m w) : Reads (x >>= f) (l ++ m) w := by
  intro before after
  rw [List.append_assoc, GetM.bind_ok (h before (m ++ after)), h', List.append_assoc]

theorem map {g : α → β} (h : Reads x l v) : Reads (x >>= fun v => Pure.pure (g v)) l (g v) := by
  intro before after
  rw [GetM.bind_ok (h before after)]
  rfl

/-- Where the cursor is makes no difference to a success. -/
theorem position {f : Nat → GetM β} (h : ∀ pos, Reads (f pos) l w) :
    Reads (position >>= f) l w := by
  intro before after
  exact h before.length before after

/-- What is to be read is ahead of the cursor. -/
theorem get {f : Buffer → GetM β} (h : ∀ b : Buffer, l.length ≤ b.remaining → Reads (f b) l w) :
    Reads (MonadState.get >>= f) l w := by
  intro before after
  exact h _ (by simp) before after

end Reads

/-- The reader takes the bytes `l`, whatever stands before and after them. What it gives has `Q`,
which may speak of all the bytes. -/
def Yields (x : GetM α) (l : List UInt8) (Q : List UInt8 → α → Prop) : Prop :=
  ∀ before after, ∃ v, x (.mid before (l ++ after)) = (.ok v, .mid (before ++ l) after) ∧
    Q (before ++ l ++ after) v

namespace Yields

variable {P : List UInt8 → α → Prop} {Q : List UInt8 → β → Prop}

theorem of_reads (h : Reads x l v) (hP : ∀ all, P all v) : Yields x l P :=
  fun before after => ⟨v, h before after, hP _⟩

theorem bind (h : Yields x l P)
    (h' : ∀ v, (∃ all, P all v) → Yields (f v) m fun all w => P all v → Q all w) :
    Yields (x >>= f) (l ++ m) Q := by
  intro before after
  obtain ⟨v, hv, hP⟩ := h before (m ++ after)
  obtain ⟨w, hw, hQ⟩ := h' v ⟨_, hP⟩ (before ++ l) after
  refine ⟨w, ?_, ?_⟩
  · rw [List.append_assoc, GetM.bind_ok hv, hw, List.append_assoc]
  · rw [← List.append_assoc]
    apply hQ
    rwa [List.append_assoc]

theorem map {g : α → β} (h : Yields x l P) (hPQ : ∀ all v, P all v → Q all (g v)) :
    Yields (x >>= fun v => Pure.pure (g v)) l Q := by
  intro before after
  obtain ⟨v, hv, hP⟩ := h before after
  exact ⟨g v, GetM.bind_ok hv, hPQ _ v hP⟩

/-- What is to be read is ahead of the cursor. -/
theorem get {f : Buffer → GetM β} (h : ∀ b : Buffer, l.length ≤ b.remaining → Yields (f b) l Q) :
    Yields (MonadState.get >>= f) l Q := by
  intro before after
  exact h _ (by simp) before after

end Yields

theorem take_reads (l : List UInt8) : Reads (take l.length) l l := by
  intro before after
  have hle : l.length ≤ (Buffer.mid before (l ++ after)).remaining := by simp
  unfold take
  rw [GetM.bind_ok (GetM.get_apply _), if_pos hle, Buffer.pos_mid, Buffer.seek_mid]
  have hextract : ((Buffer.mid before (l ++ after)).bytes.extract before.length
      (before.length + l.length)).toList = l := by
    simp [Buffer.mid]
  rw [hextract]
  rfl

theorem getUnsigned_reads (l : List UInt8) :
    Reads (getUnsigned l.length) l (Word.ofBytes l) :=
  (take_reads l).map

theorem getUnsigned_toBytes (width : Nat) {n : Nat} (h : n < 256 ^ width) :
    Reads (getUnsigned width) (Word.toBytes width n) n := by
  have hread := getUnsigned_reads (Word.toBytes width n)
  rwa [Word.length_toBytes, Word.ofBytes_toBytes, Nat.mod_eq_of_lt h] at hread

theorem getUnsigned_ofInt {width : Nat} {v : Int} (h : Word.fitsUnsigned width v = true) :
    Reads (getUnsigned width) (Word.ofInt width v) v.toNat := by
  have hread := getUnsigned_reads (Word.ofInt width v)
  have hv := Word.ofBytes_ofInt_of_fitsUnsigned h
  rw [Word.length_ofInt] at hread
  rwa [← hv, Int.toNat_natCast, hv]

theorem getSigned_ofInt {width : Nat} {v : Int} (hw : 0 < width)
    (h : Word.fitsSigned width v = true) : Reads (getSigned width) (Word.ofInt width v) v := by
  have hread := getUnsigned_reads (Word.ofInt width v)
  rw [Word.length_ofInt] at hread
  have := hread.map (g := Word.signed width)
  rwa [Word.signed_ofBytes_ofInt hw h] at this

/-! ## Integer formats -/

theorem natCast_toNat_of_fitsUnsigned {width : Nat} {v : Int}
    (h : Word.fitsUnsigned width v = true) : (v.toNat : Int) = v := by
  simp only [Word.fitsUnsigned, Bool.and_eq_true, decide_eq_true_eq] at h
  exact Int.toNat_of_nonneg h.1

/-- A value that a format holds is read back from the bytes that the format gives it. -/
theorem get_bytes {f : IntFormat} {v : Int} (h : f.holds v = true) : Reads f.get (f.bytes v) v := by
  cases f with
  | word => exact getSigned_ofInt (by decide) h
  | byte =>
      have := (getUnsigned_ofInt h).map (g := fun n : Nat => (n : Int))
      rwa [natCast_toNat_of_fitsUnsigned h] at this
  | immediate k =>
      obtain rfl : v = k.val := by simpa [IntFormat.holds] using h
      exact .pure _

theorem getLength_bytes {f : IntFormat} {n : Nat} (h : f.holds n = true) :
    Reads (getLength f) (f.bytes n) n := by
  refine .position fun pos => ?_
  rw [← List.append_nil (f.bytes n)]
  refine (get_bytes h).bind ?_
  rw [if_neg (by omega)]
  exact .pure _

end

end Foam.Codec
