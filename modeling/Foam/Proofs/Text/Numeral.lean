import Foam.SExpr.Reader
import Mathlib.Data.Nat.Digits.Defs
import Mathlib.Tactic.Ring

/-!
# Numerals read back

Numbers are written in decimal and in hexadecimal without leading zeros, and read back as what was
written. Any hexadecimal text that is read has the value that the positions of its digits give it
(`read?_eq`).
-/

namespace Foam

/-! ## Decimal -/

namespace Decimal

theorem isDigit_eq (c : Char) : isDigit c = c.isDigit := rfl

theorem toList_toString_nat (n : Nat) : (toString n).toList = Nat.toDigits 10 n := by
  rw [Nat.toString_eq_ofList_toDigits, String.toList_ofList]

theorem isDigit_of_mem_toDigits {n : Nat} {c : Char} (h : c ∈ Nat.toDigits 10 n) :
    isDigit c = true :=
  Nat.isDigit_of_mem_toDigits (by decide) (by decide) h

theorem all_isDigit_toDigits (n : Nat) : (Nat.toDigits 10 n).all isDigit = true :=
  List.all_eq_true.mpr fun _ => isDigit_of_mem_toDigits

/-- The digits of a number begin with no sign. -/
theorem exists_toDigits_eq_cons (n : Nat) :
    ∃ c cs, Nat.toDigits 10 n = c :: cs ∧ c ≠ '-' ∧ c ≠ '+' := by
  obtain ⟨c, cs, h⟩ := List.exists_cons_of_ne_nil (Nat.toDigits_ne_nil (n := n) (b := 10))
  have hc : isDigit c = true := isDigit_of_mem_toDigits (h ▸ List.mem_cons_self)
  refine ⟨c, cs, h, ?_, ?_⟩
  · rintro rfl
    cases hc
  · rintro rfl
    cases hc

theorem splitSign_toDigits (n : Nat) :
    splitSign (Nat.toDigits 10 n) = (false, Nat.toDigits 10 n) := by
  obtain ⟨c, cs, h, hminus, hplus⟩ := exists_toDigits_eq_cons n
  rw [h]
  unfold splitSign
  split
  · next heq => exact absurd (List.cons.inj heq).1 hminus
  · next heq => exact absurd (List.cons.inj heq).1 hplus
  · rfl

theorem digitsFrom_toDigits (n : Nat) : digitsFrom 0 (Nat.toDigits 10 n) = n :=
  Nat.ofDigitChars_toDigits (by decide) (by decide)

theorem readNat?_toString (n : Nat) : readNat? (toString n).toList = some n := by
  obtain ⟨c, cs, h, -, hplus⟩ := exists_toDigits_eq_cons n
  rw [toList_toString_nat]
  unfold readNat?
  split
  · next heq => exact absurd (List.cons.inj (h.symm.trans heq)).1 hplus
  · simp [all_isDigit_toDigits, digitsFrom_toDigits]

/-- Without a minus sign a numeral is its digits, with one the digits follow. -/
theorem toList_toString_int (v : Int) : (toString v).toList =
    if 0 ≤ v then Nat.toDigits 10 v.toNat else '-' :: Nat.toDigits 10 (-v).toNat := by
  rw [Int.toString_eq_repr, Int.repr_eq_if]
  split
  · rw [Nat.repr_eq_ofList_toDigits, String.toList_ofList]
  · rw [Nat.repr_eq_ofList_toDigits, String.toList_append, String.toList_ofList]
    simp

theorem readInt?_toString (v : Int) : readInt? (toString v).toList = some v := by
  rw [toList_toString_int]
  split
  · next hv =>
      rw [readInt?, splitSign_toDigits]
      simp [all_isDigit_toDigits, digitsFrom_toDigits, Int.toNat_of_nonneg hv]
  · next hv =>
      rw [readInt?, splitSign]
      simp only [List.isEmpty_eq_false_iff.mpr Nat.toDigits_ne_nil, all_isDigit_toDigits,
        digitsFrom_toDigits, Bool.not_true, Bool.or_self]
      exact congrArg some (by simp; omega)

/-- A numeral begins with a digit or a minus sign, and digits follow. -/
theorem mem_toString_int {v : Int} {c : Char} (h : c ∈ (toString v).toList) :
    c = '-' ∨ isDigit c = true := by
  rw [toList_toString_int] at h
  split at h
  · exact .inr (isDigit_of_mem_toDigits h)
  · rcases List.mem_cons.mp h with rfl | h
    · exact .inl rfl
    · exact .inr (isDigit_of_mem_toDigits h)

end Decimal

namespace SExpr

theorem readInt64?_toString (v : Int64) : readInt64? (toString v.toInt).toList = some v := by
  have hlow := Int64.le_toInt v
  have hhigh := Int64.toInt_lt v
  rw [readInt64?, Decimal.readInt?_toString, Option.bind_some, if_pos ⟨hlow, hhigh⟩,
    Int64.ofInt_toInt]

theorem readUInt64?_toString (v : UInt64) : readUInt64? (toString v.toNat).toList = some v := by
  rw [readUInt64?, Decimal.readNat?_toString, Option.bind_some, if_pos v.toNat_lt,
    UInt64.ofNat_toNat]

end SExpr

/-! ## Hexadecimal -/

namespace Text.Hex

theorem value?_digit {d : Nat} (h : d < 16) : value? (digit d) = some d := by
  have hall : ∀ d : Fin 16, value? (digit d) = some d.val := by decide
  exact hall ⟨d, h⟩

theorem readFrom?_append (m : Nat) (cs ds : List Char) :
    readFrom? m (cs ++ ds) = (readFrom? m cs).bind (readFrom? · ds) := by
  induction cs generalizing m with
  | nil => rfl
  | cons c cs ih =>
      rw [List.cons_append, readFrom?, readFrom?]
      cases value? c with
      | none => rfl
      | some d => exact ih _

/-- Every digit read multiplies by sixteen what was read before it. -/
theorem readFrom?_significant (n : Nat) : readFrom? 0 (significant n) = some n := by
  induction n using Nat.strongRecOn with
  | _ n ih =>
      rw [significant]
      split
      · next hn => rw [hn, readFrom?]
      · next hn =>
          rw [readFrom?_append, ih _ (Nat.div_lt_self (by omega) (by decide)), Option.bind_some,
            readFrom?, value?_digit (Nat.mod_lt _ (by decide))]
          exact congrArg some (Nat.div_add_mod n 16)

theorem significant_ne_nil {n : Nat} (h : n ≠ 0) : significant n ≠ [] := by
  rw [significant, if_neg h]
  exact List.append_ne_nil_of_right_ne_nil _ (List.cons_ne_nil _ _)

theorem read?_digits (n : Nat) : read? (digits n) = some n := by
  unfold digits
  split
  · next hn =>
      rw [hn]
      rfl
  · next hn =>
      have hne : (significant n).isEmpty = false := by simp [significant_ne_nil hn]
      rw [read?, hne, if_neg Bool.false_ne_true, readFrom?_significant]

/-- A digit is one of ten characters from `0` or of six from `a`. -/
theorem toNat_digit {d : Nat} (h : d < 16) :
    48 ≤ (digit d).toNat ∧ (digit d).toNat ≤ 57 ∨ 97 ≤ (digit d).toNat ∧ (digit d).toNat ≤ 102 := by
  have hall : ∀ d : Fin 16, 48 ≤ (digit d).toNat ∧ (digit d).toNat ≤ 57 ∨
      97 ≤ (digit d).toNat ∧ (digit d).toNat ≤ 102 := by decide
  exact hall ⟨d, h⟩

theorem exists_digit_of_mem_significant {n : Nat} {c : Char} (h : c ∈ significant n) :
    ∃ d < 16, c = digit d := by
  induction n using Nat.strongRecOn with
  | _ n ih =>
      rw [significant] at h
      split at h
      · cases h
      · next hn =>
          rcases List.mem_append.mp h with h | h
          · exact ih _ (Nat.div_lt_self (by omega) (by decide)) h
          · exact ⟨_, Nat.mod_lt _ (by decide), List.mem_singleton.mp h⟩

theorem exists_digit_of_mem_digits {n : Nat} {c : Char} (h : c ∈ digits n) :
    ∃ d < 16, c = digit d := by
  unfold digits at h
  split at h
  · exact ⟨0, by decide, by rw [List.mem_singleton.mp h]; rfl⟩
  · exact exists_digit_of_mem_significant h

/-! ## Digits of a width -/

theorem significant_append {n d : Nat} (hn : n ≠ 0) (hd : d < 16) :
    significant (16 * n + d) = significant n ++ [digit d] := by
  have hdiv : (16 * n + d) / 16 = n := by omega
  have hmod : (16 * n + d) % 16 = d := by omega
  rw [significant, if_neg (by omega), hdiv, hmod]

theorem digits_of_lt {d : Nat} (h : d < 16) : digits d = [digit d] := by
  rw [digits]
  split
  · next hd => rw [hd]; rfl
  · next hd => rw [significant, if_neg hd, Nat.div_eq_of_lt h, Nat.mod_eq_of_lt h, significant]; rfl

theorem padded_one {d : Nat} (h : d < 16) : padded 1 d = [digit d] := by
  rw [padded, digits_of_lt h]
  rfl

theorem padded_succ {width : Nat} (hw : 0 < width) (n : Nat) :
    padded (width + 1) n = padded width (n / 16) ++ [digit (n % 16)] := by
  by_cases hn : n < 16
  · obtain ⟨w, rfl⟩ := Nat.exists_eq_add_one.mpr hw
    have hzeros : ∀ c : Char, List.replicate (w + 1) c = List.replicate w c ++ [c] :=
      fun c => List.replicate_succ'
    rw [padded, padded, Nat.div_eq_of_lt hn, Nat.mod_eq_of_lt hn, digits_of_lt hn,
      digits_of_lt (by decide)]
    show List.replicate (w + 1) '0' ++ _ = (List.replicate w '0' ++ ['0']) ++ _
    rw [hzeros]
  · have hdigits : digits n = digits (n / 16) ++ [digit (n % 16)] := by
      rw [digits, if_neg (by omega), digits, if_neg (by omega), significant, if_neg (by omega)]
    rw [padded, hdigits, padded, List.leftpad, List.leftpad, List.length_append,
      List.length_singleton, Nat.add_sub_add_right, List.append_assoc]

/-- The lowest digits of a numeral are written with leading zeros. -/
theorem significant_padded {width m n : Nat} (hw : 0 < width) (hm : m ≠ 0) (hn : n < 16 ^ width) :
    significant (16 ^ width * m + n) = significant m ++ padded width n := by
  induction width, hw using Nat.le_induction generalizing n with
  | base => rw [pow_one, significant_append hm hn, padded_one hn]
  | succ width hw ih =>
      rw [pow_succ] at hn ⊢
      have hsplit : 16 ^ width * 16 * m + n = 16 * (16 ^ width * m + n / 16) + n % 16 := by
        have := Nat.div_add_mod n 16
        rw [Nat.mul_add, ← Nat.mul_assoc, Nat.mul_comm 16 (16 ^ width), Nat.add_assoc, this]
      have hne : 16 ^ width * m + n / 16 ≠ 0 :=
        Nat.ne_of_gt (Nat.add_pos_left
          (Nat.mul_pos (Nat.pow_pos (by decide)) (Nat.pos_of_ne_zero hm)) _)
      rw [hsplit, significant_append hne (Nat.mod_lt _ (by decide)), ih (by omega),
        padded_succ hw, List.append_assoc]

/-! ## Values of numerals -/

/-- The hexadecimal digits, each at the position of its value. -/
def alphabet : List Char := "0123456789abcdef".toList

/-- The value of a digit of either case. -/
def digitValue (c : Char) : Nat := alphabet.idxOf c.toLower

/-- The number that hexadecimal digits stand for, by the powers of 16 at their positions. -/
def numeral (cs : List Char) : Nat := Nat.ofDigits 16 (cs.reverse.map digitValue)

theorem numeral_append (cs ds : List Char) :
    numeral (cs ++ ds) = 16 ^ ds.length * numeral cs + numeral ds := by
  rw [numeral, List.reverse_append, List.map_append, Nat.ofDigits_append, List.length_map,
    List.length_reverse, Nat.add_comm]
  rfl

theorem numeral_cons (c : Char) (cs : List Char) :
    numeral (c :: cs) = 16 ^ cs.length * digitValue c + numeral cs :=
  numeral_append [c] cs

theorem numeral_lt {cs : List Char} (h : ∀ c ∈ cs, digitValue c < 16) :
    numeral cs < 16 ^ cs.length := by
  have hlt := Nat.ofDigits_lt_base_pow_length (l := cs.reverse.map digitValue) (b := 16) (by decide)
    (by simpa using h)
  rwa [List.length_map, List.length_reverse] at hlt

/-- Each character is a digit, of either case. -/
def AllDigits (cs : List Char) : Prop := ∀ c ∈ cs, c.toLower ∈ alphabet

instance (cs : List Char) : Decidable (AllDigits cs) :=
  List.decidableBAll (fun c : Char => c.toLower ∈ alphabet) cs

theorem digitValue_lt {c : Char} (h : c.toLower ∈ alphabet) : digitValue c < 16 :=
  List.idxOf_lt_length_of_mem h

theorem value?_eq (c : Char) :
    value? c = if c.toLower ∈ alphabet then some (digitValue c) else none := by
  by_cases hc : c.toNat < 128
  · have hall : ∀ n : Fin 128, value? (Char.ofNat n) =
        if (Char.ofNat n).toLower ∈ alphabet then some (digitValue (Char.ofNat n)) else none := by
      decide +kernel
    have h := hall ⟨c.toNat, hc⟩
    rwa [Char.ofNat_toNat] at h
  · -- beyond ASCII there is neither a digit nor a letter with another case
    have hupper : ¬(c.val ≥ 65 ∧ c.val ≤ 90) := by
      rintro ⟨-, hle⟩
      have hle : c.toNat ≤ 90 := UInt32.le_iff_toNat_le.mp hle
      omega
    have hlower : c.toLower = c := dif_neg hupper
    have hmem : c ∉ alphabet := by
      intro hmem
      have hall : alphabet.all (·.toNat < 128) = true := by decide
      exact hc (of_decide_eq_true (List.all_eq_true.mp hall c hmem))
    rw [hlower, if_neg hmem, value?, if_neg (by omega), if_neg (by omega), if_neg (by omega)]

theorem isDigit_iff {c : Char} : isDigit c = true ↔ c.toLower ∈ alphabet := by
  rw [isDigit, value?_eq]
  split <;> simp [*]

theorem all_isDigit_iff {cs : List Char} : cs.all isDigit = true ↔ AllDigits cs :=
  List.all_eq_true.trans (forall₂_congr fun _ _ => isDigit_iff)

/-- Digits after others shift what these stand for. Nothing else is read. -/
theorem readFrom?_eq (n : Nat) (cs : List Char) : readFrom? n cs =
    if AllDigits cs then some (16 ^ cs.length * n + numeral cs) else none := by
  induction cs generalizing n with
  | nil => simp [readFrom?, numeral, AllDigits]
  | cons c cs ih =>
      rw [readFrom?, value?_eq]
      by_cases hc : c.toLower ∈ alphabet
      · have hall : AllDigits (c :: cs) ↔ AllDigits cs := by
          rw [AllDigits, List.forall_mem_cons, and_iff_right hc, AllDigits]
        have hvalue : 16 ^ cs.length * (16 * n + digitValue c) + numeral cs =
            16 ^ (c :: cs).length * n + numeral (c :: cs) := by
          rw [numeral_cons, List.length_cons, pow_succ]
          ring
        simp only [if_pos hc, ih, hall, hvalue]
      · have hall : ¬AllDigits (c :: cs) := fun h => hc (h c List.mem_cons_self)
        simp only [if_neg hc, if_neg hall]

/-- Any text of one digit or more is read, as the number it stands for. -/
theorem read?_eq (cs : List Char) : read? cs =
    if cs ≠ [] ∧ AllDigits cs then some (numeral cs) else none := by
  unfold read?
  rw [readFrom?_eq, Nat.mul_zero, Nat.zero_add]
  cases cs with
  | nil => rw [List.isEmpty_nil, if_pos rfl, if_neg fun h => h.1 rfl]
  | cons c cs =>
      rw [List.isEmpty_cons, if_neg Bool.false_ne_true]
      exact if_congr (by simp) rfl rfl

end Text.Hex

end Foam
