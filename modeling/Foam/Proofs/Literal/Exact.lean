import Foam.Proofs.Codec.Encodable
import Mathlib.Data.Nat.Digits.Lemmas

/-!
# Wide literals are reduced exactly

The expression that is built for a literal has its value, is made of literals that fit in 32 bits, and
from left to right has the digits of the magnitude, as the base-`2 ^ 31` numeral without leading
zeros writes them. As nothing in it is wide, encoding it never comes to a second reduction. The same
digits are cut off from a word by masks and shifts (`digits_eq_wordDigits`).
-/

namespace Foam

namespace Tree

mutual
/-- The integer literals of an expression from left to right, with the counts of its shifts or
without. -/
def sints (counts : Bool) : Form → List Int64
  | node _ .sint (.leaf (.int v) :: _) => [v]
  | node _ .bcall [.leaf op, .child x, .child n] =>
    if op = Instr.row Builtin.sintShiftUp ∧ counts = false then x.sints counts
    else x.sints counts ++ n.sints counts
  | node _ _ fs => sintsAll counts fs
def sintsAll (counts : Bool) : List (Field Form) → List Int64
  | [] => []
  | .leaf _ :: fs => sintsAll counts fs
  | .child t :: fs => t.sints counts ++ sintsAll counts fs
end

theorem sints_sint (counts : Bool) (v : Int64) : (sint v).sints counts = [v] := by
  rw [sint, sints]

theorem sintsAll_map_child (counts : Bool) (ts : List Form) :
    sintsAll counts (ts.map .child) = ts.flatMap (sints counts) := by
  induction ts with
  | nil => rfl
  | cons t ts ih => rw [List.map_cons, sintsAll, ih, List.flatMap_cons]

theorem row_injective {op op' : Builtin} (h : Instr.row op = Instr.row op') : op = op' := by
  have hrow := ofOrdinal?_row op
  rw [Slot.int.inj h, ofOrdinal?_row] at hrow
  exact (Option.some.inj hrow).symm

/-- Only a shift has an operand that may be left out. -/
theorem sints_bcall {counts : Bool} {op : Builtin} (h : op ≠ .sintShiftUp ∨ counts = true)
    (args : List Form) : (bcall op args).sints counts = args.flatMap (sints counts) := by
  have hkeep : ¬(Instr.row op = Instr.row Builtin.sintShiftUp ∧ counts = false) := by
    rintro ⟨hop, hcounts⟩
    rcases h with h | h
    · exact h (row_injective hop)
    · rw [h] at hcounts
      cases hcounts
  rw [← sintsAll_map_child]
  rcases args with _ | ⟨x, _ | ⟨n, _ | ⟨t, args⟩⟩⟩
  · rfl
  · rfl
  · show (if _ then _ else _) = _
    rw [if_neg hkeep]
    simp only [List.map_cons, List.map_nil, sintsAll, List.append_nil]
  · rfl

theorem sints_shiftUp (x n : Form) : (bcall .sintShiftUp [x, n]).sints false = x.sints false := by
  rw [bcall, List.map_cons, List.map_cons, List.map_nil, sints, if_pos ⟨rfl, rfl⟩]

end Tree

namespace Literal

open Foam.Tree

/-! ## Digits -/

/-- The digits are those of the numeral in base `2 ^ 31`. -/
theorem digits_eq_reverse {n : Nat} (hn : 0 < n) :
    digits n = (Nat.digits (2 ^ digitBits) n).reverse := by
  induction n using Nat.strongRecOn with
  | _ n ih =>
      by_cases hlt : n < 2 ^ digitBits
      · rw [digits_of_lt hlt, Nat.digits_of_lt _ _ hn.ne' hlt, List.reverse_singleton]
      · have hle : 2 ^ digitBits ≤ n := Nat.le_of_not_lt hlt
        have hbase : 1 < 2 ^ digitBits := by decide
        have hdiv : 0 < n / 2 ^ digitBits := Nat.div_pos hle (Nat.two_pow_pos _)
        rw [digits_of_le hle, ih _ (Nat.div_lt_self hn hbase) hdiv, Nat.digits_def' hbase hn,
          List.reverse_cons]

/-! ## Digits cut off by masks and shifts -/

/-- The `count` lowest digits of a word, the least first. -/
def lowDigits : (count : Nat) → UInt64 → List UInt64
  | 0, _ => []
  | count + 1, m => (m &&& 0x7FFFFFFF) :: lowDigits count (m >>> 31)

/-- The position of the last one that is not zero, 0 if there is none. -/
def topIndex : List UInt64 → Nat
  | [] => 0
  | _ :: ds => if ds.all (· == 0) then 0 else topIndex ds + 1

/-- The digits of a word from the top one down. Three places are as many as a word can have. -/
def wordDigits (m : UInt64) : List UInt64 :=
  let ds := lowDigits 3 m
  (ds.take (topIndex ds + 1)).reverse

theorem toNat_lowDigit (m : UInt64) : (m &&& 0x7FFFFFFF).toNat = m.toNat % 2 ^ digitBits := by
  rw [UInt64.toNat_and]
  exact Nat.and_two_pow_sub_one_eq_mod m.toNat digitBits

theorem toNat_lowDigit_of_lt {m : UInt64} (h : m.toNat < 2 ^ digitBits) :
    (m &&& 0x7FFFFFFF).toNat = m.toNat :=
  (toNat_lowDigit m).trans (Nat.mod_eq_of_lt h)

theorem toNat_shiftDigit (m : UInt64) : (m >>> 31).toNat = m.toNat / 2 ^ digitBits := by
  rw [UInt64.toNat_shiftRight]
  exact Nat.shiftRight_eq_div_pow m.toNat digitBits

theorem eq_zero_iff_toNat {m : UInt64} : m = 0 ↔ m.toNat = 0 := UInt64.toNat_inj.symm

theorem shiftDigit_lt {count : Nat} {m : UInt64} (h : m.toNat < 2 ^ (digitBits * (count + 1))) :
    (m >>> 31).toNat < 2 ^ (digitBits * count) := by
  rw [toNat_shiftDigit]
  exact div_digit_lt h

theorem lowDigits_eq_zero_iff {count : Nat} {m : UInt64} (h : m.toNat < 2 ^ (digitBits * count)) :
    (lowDigits count m).all (· == 0) = true ↔ m = 0 := by
  induction count generalizing m with
  | zero => simpa [lowDigits, eq_zero_iff_toNat] using h
  | succ count ih =>
      rw [lowDigits, List.all_cons, Bool.and_eq_true, ih (shiftDigit_lt h), beq_iff_eq,
        eq_zero_iff_toNat, toNat_lowDigit, eq_zero_iff_toNat, toNat_shiftDigit, eq_zero_iff_toNat]
      constructor
      · rintro ⟨hmod, hdiv⟩
        rw [← Nat.div_add_mod m.toNat (2 ^ digitBits), hmod, hdiv]
        rfl
      · intro hzero
        rw [hzero]
        exact ⟨rfl, rfl⟩

/-- As long as there are places enough for all digits, none is lost. -/
theorem digits_eq_lowDigits {count : Nat} {m : UInt64}
    (h : m.toNat < 2 ^ (digitBits * (count + 1))) :
    let ds := lowDigits (count + 1) m
    digits m.toNat = (ds.take (topIndex ds + 1)).reverse.map UInt64.toNat := by
  induction count generalizing m with
  | zero =>
      intro ds
      have hlt : m.toNat < 2 ^ digitBits := by simpa using h
      have hds : ds = [m &&& 0x7FFFFFFF] := rfl
      have htop : topIndex [m &&& 0x7FFFFFFF] = 0 := by simp [topIndex]
      rw [digits_of_lt hlt, hds, htop]
      exact congrArg (fun n => [n]) (toNat_lowDigit_of_lt hlt).symm
  | succ count ih =>
      intro ds
      have hds : ds = (m &&& 0x7FFFFFFF) :: lowDigits (count + 1) (m >>> 31) := rfl
      have hzero : (lowDigits (count + 1) (m >>> 31)).all (· == 0) = true ↔
          m.toNat < 2 ^ digitBits := by
        rw [lowDigits_eq_zero_iff (shiftDigit_lt h), eq_zero_iff_toNat, toNat_shiftDigit,
          Nat.div_eq_zero_iff_lt (Nat.two_pow_pos _)]
      rw [hds, topIndex]
      by_cases hlt : m.toNat < 2 ^ digitBits
      · -- the other places are zeros, which are left out
        rw [if_pos (hzero.mpr hlt), digits_of_lt hlt]
        exact congrArg (fun n => [n]) (toNat_lowDigit_of_lt hlt).symm
      · rw [if_neg (hzero.not.mpr hlt), digits_of_le (Nat.le_of_not_lt hlt), ← toNat_shiftDigit,
          ← toNat_lowDigit, ih (shiftDigit_lt h), List.take_succ_cons, List.reverse_cons,
          List.map_append]
        rfl

/-- The digits of the magnitude of a literal are those that masks and shifts cut off from its word. -/
theorem digits_eq_wordDigits (v : Int64) :
    digits v.toInt.natAbs = (wordDigits (UInt64.ofNat v.toInt.natAbs)).map UInt64.toNat := by
  have hle : v.toInt.natAbs < 2 ^ 64 := by
    have := v.toInt_lt
    have := v.le_toInt
    omega
  have hword : (UInt64.ofNat v.toInt.natAbs).toNat = v.toInt.natAbs :=
    UInt64.toNat_ofNat_of_lt hle
  have hlt : (UInt64.ofNat v.toInt.natAbs).toNat < 2 ^ (digitBits * (2 + 1)) := by
    rw [hword]
    exact hle.trans (by decide)
  have h := digits_eq_lowDigits hlt
  rwa [hword] at h

/-! ## Literals of an expression -/

theorem sints_appendForm (acc : Form) (d : Nat) :
    (appendForm acc d).sints false = acc.sints false ++ [Int64.ofNat d] := by
  rw [appendForm, sints_bcall (.inl (by decide)), List.flatMap_cons, List.flatMap_singleton,
    sints_shiftUp, sints_sint]

theorem sints_foldl_appendForm (ds : List Nat) (acc : Form) :
    (ds.foldl appendForm acc).sints false = acc.sints false ++ ds.map Int64.ofNat := by
  induction ds generalizing acc with
  | nil => rw [List.foldl_nil, List.map_nil, List.append_nil]
  | cons d ds ih =>
      rw [List.foldl_cons, ih, sints_appendForm, List.append_assoc, List.map_cons]
      rfl

/-- The operands of the expression for a wide literal are its digits. -/
theorem sints_form {v : Int64} (h : ¬isNarrow v = true) :
    (form v).sints false = (digits v.toInt.natAbs).map Int64.ofNat := by
  obtain ⟨top, rest, hds, hform⟩ := form_of_wide h
  have hacc := sints_foldl_appendForm rest (sint (Int64.ofNat top))
  rw [sints_sint, List.singleton_append] at hacc
  rw [hform, hds, List.map_cons, ← hacc]
  split
  · rw [sints_bcall (.inl (by decide)), List.flatMap_singleton]
  · rfl

/-- No literal in the expression is wide. -/
theorem isNarrow_of_mem_sints {v w : Int64} (h : w ∈ (form v).sints true) : isNarrow w = true := by
  revert w
  refine form_induct (P := fun t => ∀ {w}, w ∈ t.sints true → isNarrow w = true) ?_ ?_ v
  · intro v hv w hw
    rw [sints_sint, List.mem_singleton] at hw
    exact hw ▸ hv
  · intro op args _ ih w hw
    rw [sints_bcall (.inr rfl)] at hw
    obtain ⟨t, ht, hw⟩ := List.mem_flatMap.mp hw
    exact ih t ht hw

theorem toInt_digit {d : Nat} (h : d < 2 ^ digitBits) : (Int64.ofNat d).toInt = d := by
  have hd : d < 2 ^ 31 := h
  exact Int64.toInt_ofNat_of_lt (by omega)

theorem pos_of_wide {v : Int64} (h : ¬isNarrow v = true) : 0 < v.toInt.natAbs := by
  rw [isNarrow_iff] at h
  omega

/-- The operands of the expression for a wide literal are the digits of its magnitude, and the first
of them is not zero. -/
theorem exists_digits {v : Int64} (h : ¬isNarrow v = true) :
    ∃ top rest, (Nat.digits (2 ^ digitBits) v.toInt.natAbs).reverse = top :: rest ∧ top ≠ 0 ∧
      ((form v).sints false).map Int64.toInt = (top :: rest).map Nat.cast := by
  have hpos := pos_of_wide h
  have hdigits := digits_eq_reverse hpos
  obtain ⟨top, rest, hds⟩ := List.exists_cons_of_ne_nil (digits_ne_nil v.toInt.natAbs)
  rw [hds] at hdigits
  refine ⟨top, rest, hdigits.symm, ?_, ?_⟩
  · have hlast := Nat.getLast_digit_ne_zero (2 ^ digitBits) hpos.ne'
    rw [← List.head_reverse (by simp [← hdigits])] at hlast
    simpa only [← hdigits, List.head_cons] using hlast
  · rw [sints_form h, hds, List.map_map]
    apply List.map_congr_left
    intro d hd
    exact toInt_digit (digits_lt (hds ▸ hd))

theorem form_eq_sint_iff {v : Int64} : (∃ w, form v = sint w) ↔ isNarrow v = true := by
  constructor
  · rintro ⟨w, hw⟩
    have hmem : w ∈ (form v).sints true := by
      rw [hw, sints_sint]
      exact List.mem_singleton_self w
    -- both stand for the same value, so the one literal is `v`
    have hvalue := literal?_form v
    rw [hw, literal?_sint] at hvalue
    exact Option.some.inj hvalue ▸ isNarrow_of_mem_sints hmem
  · intro h
    exact ⟨v, form_of_narrow h⟩

end Literal

namespace Arena

open Foam.Tree Literal

variable {a : Arena}

/-- The tree `t` of `b` stands for the literal `v` in the binary form. -/
structure Reduces (v : Int64) (t : Tree NodeId) (b : Arena) : Prop where
  value : b.literal? t.label = .ok (some v)
  narrow : ∀ w ∈ t.form.sints true, -(2 : Int) ^ 31 ≤ w.toInt ∧ w.toInt < 2 ^ 31
  /-- The bytes do not depend on how a wide literal would be encoded. -/
  encoded : ∃ bytes, Codec.encodeWide v = pure bytes ∧
    ∀ (wide : Int64 → Codec.EncodeM (List UInt8)) depth labels parent slot, b.depthBound ≤ depth →
      Codec.encodeFrom wide b depth labels parent slot t.label = pure bytes
  single : (∃ w, t.form = sint w) ↔ -(2 : Int) ^ 31 ≤ v.toInt ∧ v.toInt < 2 ^ 31
  digits : ¬(-(2 : Int) ^ 31 ≤ v.toInt ∧ v.toInt < 2 ^ 31) →
    ∃ top rest, (Nat.digits (2 ^ 31) v.toInt.natAbs).reverse = top :: rest ∧ top ≠ 0 ∧
      (t.form.sints false).map Int64.toInt = (top :: rest).map Nat.cast

/-- Every literal is reduced to an expression of its value, which takes as much room as its form and
needs no reduction in turn. -/
theorem buildNarrow_exact (hw : a.WellFormed) (v : Int64) (hr : a.Room (form v).size) :
    ∃ t b, buildNarrow v a = .ok (t.label, b) ∧ Grows a [t] b ∧ Reduces v t b := by
  obtain ⟨t, b, hrun, hform, hgrows⟩ := buildNarrow_grows hw v hr
  have ht : t.In b := hgrows.placed t List.mem_cons_self
  refine ⟨t, b, hrun, hgrows, ?_⟩
  constructor
  · rw [literal?_eq hgrows.wellFormed ht, hform, literal?_form]
  · intro w hmem
    rw [hform] at hmem
    exact isNarrow_iff.mp (isNarrow_of_mem_sints hmem)
  · obtain ⟨bytes, hbytes⟩ : ∃ bytes, (form v).encode (.ofCount none) = pure bytes :=
      literal_succeeds v
    have hall : ∀ labels, (form v).encode labels = pure bytes := fun labels =>
      (encode_literal v labels _).trans hbytes
    refine ⟨bytes, (encodeWide_eq v .word).trans (hall _), ?_⟩
    intro wide depth labels parent slot hd
    rw [encodeFrom_literal ht hform (ht.height_lt_depthBound.trans_le hd), hall]
  · rw [hform, form_eq_sint_iff, isNarrow_iff]
  · intro h
    rw [← isNarrow_iff] at h
    rw [hform]
    exact exists_digits h

/-- The least literal is the negation of an expression over three digits. -/
theorem buildNarrow_exact_minValue :
    Arena.empty.WellFormed ∧ Arena.empty.Room (form Int64.minValue).size ∧
      ∃ t b, buildNarrow Int64.minValue .empty = .ok (t.label, b) ∧ Grows .empty [t] b ∧
        Reduces Int64.minValue t b ∧ (t.form.sints false).map Int64.toInt = [2, 0, 0] := by
  have hroom : Arena.empty.Room (form Int64.minValue).size :=
    Nat.le_trans (Nat.add_le_add_left (size_form_le _) _) (by decide)
  obtain ⟨t, b, hrun, hgrows, hreduces⟩ := buildNarrow_exact empty_wellFormed _ hroom
  obtain ⟨top, rest, hdigits, -, hoperands⟩ := hreduces.digits (by decide)
  have hmin : (Nat.digits (2 ^ 31) Int64.minValue.toInt.natAbs).reverse = [2, 0, 0] := by
    decide +kernel
  rw [← hdigits, hmin] at hoperands
  exact ⟨empty_wellFormed, hroom, t, b, hrun, hgrows, hreduces, hoperands⟩

end Arena

end Foam
